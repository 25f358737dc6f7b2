/-
Statements with their values written where they occur. `Query.inline` walks a
query and writes text and values at once: it knows nothing of parameters, of
slots or of templates, and a conditional is written arm by arm. The filters of
a query become the conditions that `Filter.inline` writes
(`Filter.Readable.pieces_slot`).
-/
import ParamQuery.Compile.Emit
import ParamQuery.Proofs.Settling
import Mathlib.Data.List.Basic

namespace ParamQuery

open Sql

/-! ## Text -/

/-- Text as it stands. -/
def verbatim (s : String) : List Piece := plain s.toList

/-- A name in double quotes. -/
def namePieces (s : String) : List Piece := verbatim (quoteName s)

/-- A JSON key in single quotes. -/
def keyPieces (s : String) : List Piece := verbatim (quoteKey s)

/-- The parts with a separator between them. -/
def interspersed (separator : String) : List (List Piece) → List Piece
  | [] => []
  | [p] => p
  | p :: rest => p ++ verbatim separator ++ interspersed separator rest

/-- The pieces in parentheses. -/
def bracketed (p : List Piece) : List Piece := verbatim "(" ++ p ++ verbatim ")"

/-- The pieces in parentheses, where they have to be. -/
def bracketIf (wrap : Bool) (p : List Piece) : List Piece := if wrap then bracketed p else p

/-- Conditions that hold together: each in parentheses, unless there is only
one. -/
def conjunction : List (List Piece) → List Piece
  | [only] => only
  | parts => interspersed " AND " (parts.map bracketed)

/-- The way into a JSON document. -/
def stepPieces : List String → List Piece
  | [] => []
  | [last] => verbatim "->>" ++ keyPieces last
  | step :: rest => verbatim "->" ++ keyPieces step ++ stepPieces rest

/-- Arms of a `CASE` and the value when none applies; without arms only the
value. -/
def casePieces (t : List Piece × List Piece) : List Piece :=
  if t.1.isEmpty then t.2
  else verbatim "CASE" ++ t.1 ++ verbatim " ELSE " ++ t.2 ++ verbatim " END"

/-! ## Filters -/

/-- A condition on what a path leads to. -/
def PathTarget.inline (t : PathTarget) (condition : List Piece) : List Piece :=
  match t.unnest with
  | none => verbatim (Fragment.render t.operand) ++ verbatim " " ++ condition
  | some column =>
    verbatim "exists (Select 1 from unnest(" ++ verbatim (Fragment.render column) ++
      verbatim ") as objects where " ++ verbatim (Fragment.render t.operand) ++ verbatim " " ++ condition ++
      verbatim ")"

/-- The value of a filter's parameter beside what a path leads to. -/
def FilterParameter.inline (p : FilterParameter) (t : PathTarget) : List Piece := [.value (p.binding t).2]

mutual
/-- The condition with its values in it. -/
def Filter.inline (table : Table) (qualifier : Option String) : Filter → List Piece
  | .compare path op value =>
    let target := (ColumnPath.parse path).resolve table qualifier
    target.inline (verbatim op.symbol ++ verbatim " " ++ value.inline target)
  | .like path pattern =>
    let target := (ColumnPath.parse path).resolve table qualifier
    target.inline (verbatim "LIKE " ++ pattern.inline target)
  | .isNull path negated =>
    ((ColumnPath.parse path).resolve table qualifier).inline
      (verbatim (if negated then "IS NOT NULL" else "IS NULL"))
  | .between path low high =>
    let target := (ColumnPath.parse path).resolve table qualifier
    target.inline (verbatim "BETWEEN " ++ low.inline target ++ verbatim " AND " ++ high.inline target)
  | .and items =>
    if items.isEmpty then verbatim "TRUE"
    else interspersed " AND " (filtersInline table qualifier items)
  | .or items =>
    if items.isEmpty then verbatim "FALSE"
    else interspersed " OR " (filtersInline table qualifier items)
  | .not item => verbatim "NOT (" ++ Filter.inline table qualifier item ++ verbatim ")"
/-- The items of a conjunction or a disjunction, each in parentheses. -/
def filtersInline (table : Table) (qualifier : Option String) : List Filter → List (List Piece)
  | [] => []
  | item :: rest => bracketed (Filter.inline table qualifier item) :: filtersInline table qualifier rest
end

/-! ## Expressions -/

mutual
/-- Whether an expression is text out of a JSON document, so that a constant
beside it is bound as text. -/
def Expr.isJsonText : Expr → Bool → Bool
  | .source s, beside => s.isJsonText beside
  | .constant _, beside => beside
  | .member _ path _, _ => 1 < path.length && lengthDepth path == 0
  | .call method receiver _, _ => method.transformsReceiver && optionIsJsonText receiver
  | .unary _ operand, beside => operand.isJsonText beside
  | .subquery _, _ | .binary _ _ _, _ | .conditional _ _ _, _ | .project _, _ => false
/-- Whether a constant beside a source is bound as text. -/
def Source.isJsonText : Source → Bool → Bool
  | ⟨_, _, _, none⟩, beside => beside
  | ⟨_, _, _, some ⟨outer, inner⟩⟩, beside => outer.isJsonText (inner.isJsonText beside)
/-- Whether an expression that may be missing is text out of a JSON document. -/
def optionIsJsonText : Option Expr → Bool
  | none => false
  | some e => e.isJsonText false
end

/-- A call with its receiver and its arguments. -/
def Method.inline (m : Method) (receiver : List Piece) (arguments : List (List Piece)) : List Piece :=
  let first := arguments.getD 0 []
  let second := arguments.getD 1 []
  match m with
  | .equals => receiver ++ verbatim " = " ++ first
  | .toLower => verbatim "LOWER(" ++ receiver ++ verbatim ")"
  | .toUpper => verbatim "UPPER(" ++ receiver ++ verbatim ")"
  | .reverse => verbatim "REVERSE(" ++ receiver ++ verbatim ")"
  | .length => verbatim "LENGTH(" ++ receiver ++ verbatim ")"
  | .concat => verbatim "CONCAT(" ++ interspersed ", " arguments ++ verbatim ")"
  | .substring =>
    if arguments.length = 1 then
      verbatim "SUBSTRING(" ++ receiver ++ verbatim " FROM " ++ first ++ verbatim "+1)"
    else
      verbatim "SUBSTRING(" ++ receiver ++ verbatim " FROM " ++ first ++ verbatim "+1 FOR " ++ second ++
        verbatim ")"
  | .replace =>
    verbatim "REPLACE(" ++ receiver ++ verbatim ", " ++ first ++ verbatim ", " ++ second ++ verbatim ")"
  | .trim => verbatim "TRIM(both " ++ first ++ verbatim " from " ++ receiver ++ verbatim ")"
  | .trimStart => verbatim "TRIM(leading " ++ first ++ verbatim " from " ++ receiver ++ verbatim ")"
  | .trimEnd => verbatim "TRIM(trailing " ++ first ++ verbatim " from " ++ receiver ++ verbatim ")"
  | .contains => receiver ++ verbatim " LIKE '%' || " ++ first ++ verbatim " || '%'"
  | .startsWith => receiver ++ verbatim " LIKE " ++ first ++ verbatim " || '%'"
  | .endsWith => receiver ++ verbatim " LIKE '%' || " ++ first

/-- A member of a source that is written as `root`. -/
def memberPieces (sc : Scope) (own : Option String) (root : List Piece) (path : List String) (m : Mode) :
    List Piece :=
  let depth := lengthDepth path
  let inner := path.take (path.length - depth)
  let base := inner.headD ""
  let column := root ++ verbatim "." ++ namePieces (((sc.column? own base).map (·.dbName)).getD base) ++
    stepPieces (inner.drop 1)
  let measured := (fun p => verbatim "LENGTH(" ++ p ++ verbatim ")")^[depth] column
  if m.labelling && !m.insideCase then measured ++ verbatim " AS " ++ namePieces (memberName path) else measured

/-- The columns of a source that counts groups, each under its member's name,
and the number of rows of a group. -/
def groupJoinPieces (table typeName : String) (columns : List (String × String)) (inner outer : List Piece) :
    List Piece :=
  interspersed ", " (columns.map fun (member, name) =>
      namePieces table ++ verbatim "." ++ namePieces name ++ verbatim " AS " ++
        namePieces (typeName ++ "." ++ member)) ++
    verbatim ", " ++ verbatim "(SELECT COUNT(*) FROM " ++ namePieces table ++ verbatim " AS " ++
    namePieces ("temp_" ++ table) ++ verbatim " WHERE " ++ inner ++ verbatim " = " ++ outer ++ verbatim ")" ++
    verbatim " AS " ++ namePieces (typeName ++ ".__GROUP_COUNT")

/-- The columns of a plain source. -/
def sourcePieces (table : String) (columns : List (String × String)) : List Piece :=
  if columns.isEmpty then namePieces table ++ verbatim ".*"
  else interspersed ", " (columns.map fun (_, name) => namePieces table ++ verbatim "." ++ namePieces name)

/-- A null test of an operand. -/
def nullTestPieces (op : BinaryOp) (m : Mode) (operand : Expr) (text : List Piece) : List Piece :=
  bracketIf (needsParens op false comparisonPrecedence false m operand) text ++
    verbatim (if op == .notEqual then " IS NOT NULL" else " IS NULL")

/-- An operation on two operands. -/
def operationPieces (op : BinaryOp) (m : Mode) (left right : Expr) (l r : List Piece) : List Piece :=
  let concat := Expr.isConcatenation op left right
  let precedence := if concat then otherPrecedence else op.precedence
  bracketIf (needsParens op concat precedence false m left) l ++
    verbatim (if concat then " || " else op.padded) ++
    bracketIf (needsParens op concat precedence true m right) r

/-- A clause that lists items, absent without items. -/
def clausePieces (keyword : String) (items : List (List Piece)) : List Piece :=
  if items.isEmpty then [] else verbatim keyword ++ interspersed ", " items

/-- The table of a query, in its schema if it is the described one. -/
def tablePieces (table : Table) (name : String) : List Piece :=
  match if name = table.name then table.schema else none with
  | none => namePieces name
  | some schema => namePieces schema ++ verbatim "." ++ namePieces name

mutual
/-- An expression below the guards of the conditionals around it: the arms that
it adds to their `CASE`, and its value when none of these applies. -/
def Expr.inlineUnder : Expr → Scope → Mode → Bool → List (List Piece) → List Piece × List Piece
  | .source s, sc, m, beside, _ => ([], s.inline sc m beside)
  | .subquery q, sc, _, _, _ => ([], bracketed (q.inline sc))
  | .binary op left right, sc, m, _, _ =>
    let m := m.operand
    let l := casePieces (left.inlineUnder sc m false [])
    let r := casePieces (right.inlineUnder sc m (left.isJsonText false) [])
    ([], if op.isEquality && right.isNull then nullTestPieces op m left l
      else if op.isEquality && left.isNull then nullTestPieces op m right r
      else operationPieces op m left right l r)
  | .conditional test ifTrue ifFalse, sc, m, _, guards =>
    let m := m.inCase
    let inner := guards ++ [casePieces (test.inlineUnder sc m false [])]
    let yes := ifTrue.inlineUnder sc m false inner
    let no := ifFalse.inlineUnder sc m false guards
    (yes.1 ++ verbatim " WHEN " ++ conjunction inner ++ verbatim " THEN " ++ yes.2 ++ no.1, no.2)
  | .constant value, _, _, beside, _ => ([], [.value ⟨value, if beside then some .text else none⟩])
  | .member root path _, sc, m, beside, _ =>
    ([], memberPieces sc (root.bind (·.table)) (inlineRoot root sc m.forMemberRoot beside) path m)
  | .call method receiver arguments, sc, m, _, _ =>
    let m := m.operand
    let beside := method.comparesWithReceiver && optionIsJsonText receiver
    ([], method.inline (inlineOption receiver sc m) (inlineEach arguments sc m beside))
  | .project items, sc, m, _, _ =>
    ([], interspersed ", " (inlineEach items sc m.operand.forLabels false))
  | .unary .not operand, sc, m, beside, _ =>
    ([], verbatim "NOT (" ++ casePieces (operand.inlineUnder sc m.operand beside []) ++ verbatim ")")
  | .unary .convert operand, sc, m, beside, _ => ([], casePieces (operand.inlineUnder sc m beside []))
  | .unary .typeAs operand, sc, m, beside, _ => ([], casePieces (operand.inlineUnder sc m beside []))
/-- A source, with its values in place. -/
def Source.inline : Source → Scope → Mode → Bool → List Piece
  | ⟨typeName, members, own, groupJoin⟩, sc, m, beside =>
    let table := sc.tableName own
    let columns := sc.sourceColumns own members
    match groupJoin with
    | some ⟨outer, inner⟩ =>
      groupJoinPieces table typeName columns
        (casePieces (inner.inlineUnder { sc with qualifier := some ("temp_" ++ table) } {} beside []))
        (casePieces (outer.inlineUnder sc {} (inner.isJsonText beside) []))
    | none => if m.memberRoot then namePieces table else sourcePieces table columns
/-- The root of a member, which is the table if there is none. -/
def inlineRoot : Option Source → Scope → Mode → Bool → List Piece
  | none, sc, _, _ => namePieces (sc.tableName none)
  | some s, sc, m, beside => s.inline sc m beside
/-- An expression that may be missing. -/
def inlineOption : Option Expr → Scope → Mode → List Piece
  | none, _, _ => []
  | some e, sc, m => casePieces (e.inlineUnder sc m false [])
/-- Some expressions, in order. -/
def inlineEach : List Expr → Scope → Mode → Bool → List (List Piece)
  | [], _, _, _ => []
  | e :: rest, sc, m, beside => casePieces (e.inlineUnder sc m beside []) :: inlineEach rest sc m beside
/-- The joins, one behind another. -/
def inlineJoins : List Join → Scope → List Piece
  | [], _ => []
  | ⟨kind, table, outer, inner⟩ :: rest, sc =>
    verbatim " " ++ verbatim kind.keyword ++ verbatim " " ++ namePieces table ++ verbatim " ON " ++
      casePieces (outer.inlineUnder sc {} false []) ++ verbatim " = " ++
      casePieces (inner.inlineUnder sc {} false []) ++ inlineJoins rest sc
/-- The sort keys, in order. -/
def inlineSortKeys : List SortKey → Scope → List (List Piece)
  | [], _ => []
  | ⟨key, direction⟩ :: rest, sc =>
    (casePieces (key.inlineUnder sc {} false []) ++ verbatim " " ++ verbatim direction.keyword) ::
      inlineSortKeys rest sc
/-- The statement of a query with its values in it. -/
def Query.inline : Query → Scope → List Piece
  | ⟨source, selector, joins, conditions, filters, groupBy, orderBy, limit, offset, distinct, count⟩, sc =>
    let sc := { sc with qualifier := source.table }
    let table := source.table.getD sc.table.name
    let restrictions := inlineEach conditions sc {} false ++ filters.map (Filter.inline sc.table (some table))
    verbatim "SELECT " ++ (if distinct then verbatim "DISTINCT " else []) ++
      (if count then verbatim "COUNT(*)"
        else if selector.isSome then inlineOption selector sc {} else source.inline sc {} false) ++
      verbatim " FROM " ++ tablePieces sc.table table ++ inlineJoins joins sc ++
      (if restrictions.isEmpty then [] else verbatim " WHERE " ++ conjunction restrictions) ++
      clausePieces " GROUP BY " (inlineEach groupBy sc {} false) ++
      clausePieces " ORDER BY " (inlineSortKeys orderBy sc) ++
      (match limit with
        | none => []
        | some n => verbatim " LIMIT " ++ verbatim (if n = 0 then "ALL" else toString n)) ++
      (match offset with
        | none => []
        | some n => verbatim " OFFSET " ++ verbatim (toString n))
end

/-- An expression with its values in it. -/
def Expr.inline (e : Expr) (sc : Scope) (m : Mode) (beside : Bool) : List Piece :=
  casePieces (e.inlineUnder sc m beside [])

/-! ## Pieces of fragments -/

section Fragments

variable {β : Type} (g : β → List Piece)

@[simp] theorem pieces_text (s : String) : (Token.text s).pieces g = verbatim s := rfl

@[simp] theorem pieces_name (s : String) : (Token.name s).pieces g = namePieces s := rfl

@[simp] theorem pieces_key (s : String) : (Token.key s).pieces g = keyPieces s := rfl

@[simp] theorem pieces_slot (b : β) : (Token.slot b).pieces g = g b := rfl

theorem verbatim_append (s t : String) : verbatim (s ++ t) = verbatim s ++ verbatim t := by
  simp [verbatim, plain]

theorem pieces_separated (separator : String) (fs : List (Fragment β)) :
    (Fragment.separated separator fs).pieces g = interspersed separator (fs.map (Fragment.pieces g)) := by
  induction fs with
  | nil => rfl
  | cons f fs ih =>
    cases fs with
    | nil => rfl
    | cons f' fs => simpa [Fragment.separated, interspersed] using ih

theorem pieces_parenthesized (f : Fragment β) : (Fragment.parenthesized f).pieces g = bracketed (f.pieces g) := by
  simp [Fragment.parenthesized, bracketed]

theorem pieces_traversal (steps : List String) :
    (Fragment.traversal steps : Fragment β).pieces g = stepPieces steps := by
  induction steps with
  | nil => rfl
  | cons step rest ih =>
    cases rest with
    | nil => simp [Fragment.traversal, stepPieces]
    | cons next rest => simp [Fragment.traversal, stepPieces, ih]

theorem pieces_guardFragment (fs : List (Fragment β)) :
    (guardFragment fs).pieces g = conjunction (fs.map (Fragment.pieces g)) := by
  match fs with
  | [] => rfl
  | [f] => rfl
  | f :: f' :: fs =>
    simp only [guardFragment, pieces_separated, conjunction, List.map_cons, List.map_map, Function.comp_def,
      pieces_parenthesized]

theorem pieces_whereClause (fs : List (Fragment β)) :
    (Frame.whereClause fs).pieces g =
      if (fs.map (Fragment.pieces g)).isEmpty then []
      else verbatim " WHERE " ++ conjunction (fs.map (Fragment.pieces g)) := by
  match fs with
  | [] => rfl
  | [f] => rfl
  | f :: f' :: fs =>
    simp only [Frame.whereClause, Fragment.pieces_cons, pieces_text, pieces_separated, conjunction, List.map_cons,
      List.map_map, Function.comp_def, pieces_parenthesized, List.isEmpty_cons, Bool.false_eq_true, if_false]

theorem pieces_listClause (keyword : String) (fs : List (Fragment β)) :
    (Frame.listClause keyword fs).pieces g = clausePieces keyword (fs.map (Fragment.pieces g)) := by
  cases fs with
  | nil => rfl
  | cons f fs => simp [Frame.listClause, clausePieces, pieces_separated]

theorem pieces_flatMap {α : Type} (l : List α) (h : α → Fragment β) :
    Fragment.pieces g (l.flatMap h) = l.flatMap fun a => (h a).pieces g := by
  rw [Fragment.pieces, List.flatMap_assoc]
  rfl

/-- A fragment without slots is its text. -/
theorem pieces_of_slots_eq_nil {f : Fragment String} (h : f.slots = []) (g : String → List Piece) :
    f.pieces g = verbatim (Fragment.render f) := by
  induction f with
  | nil => rfl
  | cons t f ih =>
    rw [Fragment.slots_cons, List.append_eq_nil_iff] at h
    rw [Fragment.pieces_cons, Fragment.render_cons, verbatim_append, ih h.2]
    cases t with
    | slot s => cases h.1
    | text s | name s | key s => rfl

end Fragments

/-! ## Filters -/

section Filters

variable (table : Table) (qualifier : Option String)

theorem filtersInline_eq_map (items : List Filter) :
    filtersInline table qualifier items = items.map fun f => bracketed (f.inline table qualifier) := by
  induction items with
  | nil => rfl
  | cons f items ih => simp [filtersInline, ih]

theorem pieces_predicate (path : String) (g : String → List Piece) (condition : Fragment String) :
    (((ColumnPath.parse path).resolve table qualifier).predicate condition).pieces g =
      ((ColumnPath.parse path).resolve table qualifier).inline (condition.pieces g) := by
  obtain ⟨hoperand, hunnest⟩ := (ColumnPath.parse path).slots_resolve table qualifier
  cases h : ((ColumnPath.parse path).resolve table qualifier).unnest with
  | none => simp [PathTarget.predicate, PathTarget.inline, h, pieces_of_slots_eq_nil hoperand]
  | some column =>
    simp [PathTarget.predicate, PathTarget.inline, h, pieces_of_slots_eq_nil hoperand,
      pieces_of_slots_eq_nil (hunnest column h)]

theorem pieces_connective {items : List Filter} {g : String → List Piece}
    (h : ∀ f ∈ items, (f.fragment table qualifier).pieces g = f.inline table qualifier) (separator : String) :
    (Fragment.separated separator (items.map fun f => Fragment.parenthesized (f.fragment table qualifier))).pieces g =
      interspersed separator (filtersInline table qualifier items) := by
  rw [pieces_separated, filtersInline_eq_map, List.map_map]
  refine congrArg (interspersed separator) (List.map_congr_left fun f hf => ?_)
  rw [Function.comp_apply, pieces_parenthesized, h f hf]

/-- The SQL of a filter with a value in the place of each token. -/
theorem Filter.pieces_fragment {f : Filter} {g : String → List Piece}
    (h : ∀ e ∈ f.bindings table qualifier, g ("@" ++ e.1) = [.value e.2]) :
    (f.fragment table qualifier).pieces g = f.inline table qualifier := by
  have hvalue : ∀ (p : FilterParameter) (t : PathTarget), g ("@" ++ (p.binding t).1) = [.value (p.binding t).2] →
      p.token.pieces g = p.inline t := fun _ _ hp => hp
  induction f using Filter.induction with
  | compare path op value =>
    simp only [Filter.bindings, List.mem_singleton, forall_eq] at h
    rw [Filter.fragment, pieces_predicate, Filter.inline]
    simp [hvalue _ _ h]
  | like path pattern =>
    simp only [Filter.bindings, List.mem_singleton, forall_eq] at h
    rw [Filter.fragment, pieces_predicate, Filter.inline]
    simp [hvalue _ _ h]
  | isNull path negated =>
    rw [Filter.fragment, pieces_predicate, Filter.inline]
    simp
  | between path low high =>
    simp only [Filter.bindings, List.mem_cons, List.not_mem_nil, or_false, forall_eq_or_imp, forall_eq] at h
    rw [Filter.fragment, pieces_predicate, Filter.inline]
    simp [hvalue _ _ h.1, hvalue _ _ h.2]
  | and items ih =>
    rw [Filter.bindings, Filter.bindingsOf_eq_flatMap] at h
    cases items with
    | nil => simp [Filter.fragment, Filter.inline]
    | cons f items =>
      rw [Filter.fragment_and_cons, pieces_connective _ _ fun f hf =>
        ih f hf fun e he => h e (List.mem_flatMap.2 ⟨f, hf, he⟩), Filter.inline]
      rfl
  | or items ih =>
    rw [Filter.bindings, Filter.bindingsOf_eq_flatMap] at h
    cases items with
    | nil => simp [Filter.fragment, Filter.inline]
    | cons f items =>
      rw [Filter.fragment_or_cons, pieces_connective _ _ fun f hf =>
        ih f hf fun e he => h e (List.mem_flatMap.2 ⟨f, hf, he⟩), Filter.inline]
      rfl
  | not item ih =>
    rw [Filter.fragment, Filter.inline]
    simp [ih h]

/-- A filter in a slot stands for its condition. -/
theorem Filter.Readable.pieces_slot {f : Filter} (h : f.Readable) :
    (Slot.filter (f.command table qualifier)).pieces = f.inline table qualifier := by
  rw [← Slot.flatMap_symbols, Slot.symbols, Filter.symbols_command table qualifier h.nodup h.identifier id,
    Option.getD_some, flatMap_symbols (f.layout_legible table qualifier id).whole, Filter.layout,
    Fragment.pieces_map, Filter.shape, Fragment.pieces_map]
  refine Filter.pieces_fragment table qualifier fun e he => ?_
  have hname : String.ofList (("@" ++ e.1).toList.drop 1) = e.1 := by simp
  rw [hname, Filter.lookup_of_mem table qualifier h.nodup he]
  rfl

end Filters

end ParamQuery
