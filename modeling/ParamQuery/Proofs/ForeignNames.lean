/-
Names in a statement on another table than the described one. A filter takes
the columns of such a table as they are named; so does a member of a source that
names the table. A bare name, a member of one segment without a source, is
looked up in the described table all the same, and the column that is found
there is written with the other table in front of it.

So a bare name means the column that a filter means by it exactly when the
described table has no other column for it (`Table.NamedAsIs`), and a statement all
of whose bare names are such is the one in which every bare name is given the
source of the statement (`bare_names_of_other_table`).
-/
import ParamQuery.Proofs.EmitInline

namespace ParamQuery

open Sql

/-! ## Bare names -/

mutual
/-- The bare names in an expression, statements and sources inside it apart. -/
def Expr.bareNames : Expr → List String
  | .member none [name] _ => [name]
  | .binary _ left right => left.bareNames ++ right.bareNames
  | .conditional test ifTrue ifFalse => test.bareNames ++ ifTrue.bareNames ++ ifFalse.bareNames
  | .call _ receiver arguments => bareNamesOption receiver ++ bareNamesEach arguments
  | .project items => bareNamesEach items
  | .unary _ operand => operand.bareNames
  | _ => []
/-- The bare names in an expression that may be missing. -/
def bareNamesOption : Option Expr → List String
  | none => []
  | some e => e.bareNames
/-- The bare names in each of some expressions. -/
def bareNamesEach : List Expr → List String
  | [] => []
  | e :: rest => e.bareNames ++ bareNamesEach rest
end

mutual
/-- The expression with a source for every bare name. -/
def Expr.rooted (s : Source) : Expr → Expr
  | .member none [name] type => .member (some s) [name] type
  | .binary op left right => .binary op (left.rooted s) (right.rooted s)
  | .conditional test ifTrue ifFalse => .conditional (test.rooted s) (ifTrue.rooted s) (ifFalse.rooted s)
  | .call method receiver arguments => .call method (rootedOption s receiver) (rootedEach s arguments)
  | .project items => .project (rootedEach s items)
  | .unary op operand => .unary op (operand.rooted s)
  | e => e
/-- An expression that may be missing, with the source for every bare name. -/
def rootedOption (s : Source) : Option Expr → Option Expr
  | none => none
  | some e => some (e.rooted s)
/-- Some expressions, each with the source for every bare name. -/
def rootedEach (s : Source) : List Expr → List Expr
  | [] => []
  | e :: rest => e.rooted s :: rootedEach s rest
end

theorem bareNamesEach_eq_flatMap (es : List Expr) : bareNamesEach es = es.flatMap Expr.bareNames := by
  induction es with
  | nil => rfl
  | cons e es ih => simp [bareNamesEach, ih]

theorem rootedEach_eq_map (s : Source) (es : List Expr) : rootedEach s es = es.map (Expr.rooted s) := by
  induction es with
  | nil => rfl
  | cons e es ih => simp [rootedEach, ih]

/-- The bare names in the select list, the conditions, the groups and the order
of a query. -/
def Query.bareNames (q : Query) : List String :=
  (q.selector.toList ++ q.conditions ++ q.groupBy ++ q.orderBy.map (·.key)).flatMap Expr.bareNames

/-- The query with a source for every bare name of these clauses. -/
def Query.rooted (q : Query) (s : Source) : Query :=
  { q with
    selector := q.selector.map (Expr.rooted s)
    conditions := q.conditions.map (Expr.rooted s)
    groupBy := q.groupBy.map (Expr.rooted s)
    orderBy := q.orderBy.map fun k => { k with key := k.key.rooted s } }

/-! ## A source changes nothing around a name -/

variable (s : Source)

@[simp] theorem Expr.valueType_rooted (e : Expr) : (e.rooted s).valueType = e.valueType := by
  induction e using Expr.induction with
  | member root path type =>
    rcases root with _ | root
    · rcases path with _ | ⟨name, _ | ⟨next, rest⟩⟩ <;> rfl
    · rfl
  | binary op left right ihl ihr => simp [Expr.rooted, Expr.valueType, ihl, ihr]
  | conditional test ifTrue ifFalse _ iht ihf => simp [Expr.rooted, Expr.valueType, iht, ihf]
  | unary op operand ih => cases op <;> simp [Expr.rooted, Expr.valueType, ih]
  | _ => simp [Expr.rooted, Expr.valueType]

@[simp] theorem Expr.isNull_rooted (e : Expr) : (e.rooted s).isNull = e.isNull := by
  rcases e with _ | _ | _ | _ | _ | ⟨_ | _, _ | ⟨_, _ | _⟩, _⟩ | _ | _ | _ <;> rfl

@[simp] theorem Expr.isConcatenation_rooted (op : BinaryOp) (left right : Expr) :
    Expr.isConcatenation op (left.rooted s) (right.rooted s) = Expr.isConcatenation op left right := by
  simp [Expr.isConcatenation]

@[simp] theorem Expr.needsParens_rooted (op : BinaryOp) (concat : Bool) (precedence : Nat) (onRight : Bool) (m : Mode)
    (e : Expr) : needsParens op concat precedence onRight m (e.rooted s) =
      needsParens op concat precedence onRight m e := by
  have hprecedence : (e.rooted s).precedence? m = e.precedence? m := by
    rcases e with _ | _ | _ | _ | _ | ⟨_ | _, _ | ⟨_, _ | _⟩, _⟩ | _ | _ | ⟨_ | _ | _, _⟩ <;>
      simp [Expr.rooted, Expr.precedence?]
  have hoperation : (e.rooted s).isOperation op concat = e.isOperation op concat := by
    rcases e with _ | _ | _ | _ | _ | ⟨_ | _, _ | ⟨_, _ | _⟩, _⟩ | _ | _ | _ <;>
      simp [Expr.rooted, Expr.isOperation]
  simp [needsParens, hprecedence, hoperation]

/-! ## Emission -/

/-- Whether a name means, without a source, the column of that name: no column
of the described table is found for it, and it is not refused for that; or the
column that is found has the name itself. -/
def Table.NamedAsIs (table : Table) (strict : Bool) (name : String) : Prop :=
  match table.columnByMember? name with
  | some c => c.dbName = name
  | none => strict = false

instance (table : Table) (strict : Bool) (name : String) : Decidable (table.NamedAsIs strict name) := by
  unfold Table.NamedAsIs
  split <;> infer_instance

/-- A source that is nothing but a table. -/
def Source.ofTable (table : String) : Source := ⟨"", [], some table, none⟩

variable {sc : Scope} {other : String}

/-- A name with the source of another table is written as it is. -/
theorem emit_rootedName (hother : other ≠ sc.table.name) (name : String) (type : ValueType) (m : Mode) (beside : Bool) :
    (Expr.member (some (.ofTable other)) [name] type).emit sc m beside =
      .ofTerm (labelIf m [name] (.column (.table other) name [])) false := by
  have hforeign : sc.isForeign (some other) = true := by simpa [Scope.isForeign] using hother
  simp [Expr.emit, memberTerm, lengthDepth, lengths, columnTerm, Scope.column?, hforeign, emitRoot, Source.ofTable,
    Source.emit, Mode.forMemberRoot, Scope.tableName, Emitted.term, Emitted.ofTerm, caseTerm]

/-- A bare name is looked up in the described table. -/
theorem emit_bareName (hscope : sc.qualifier = some other) (name : String) (type : ValueType) (m : Mode)
    (beside : Bool) :
    (Expr.member none [name] type).emit sc m beside =
      .ofTerm (labelIf m [name] (columnTerm sc none (.table other) [name])) false := by
  simp [Expr.emit, memberTerm, lengthDepth, lengths, emitRoot, Scope.tableName, hscope]

/-- It is written as it is when it is `NamedAsIs`, and then only. -/
theorem columnTerm_eq_iff (name : String) :
    columnTerm sc none (.table other) [name] = .column (.table other) name [] ↔ sc.table.NamedAsIs sc.strict name := by
  simp only [columnTerm, Scope.column?, Scope.isForeign, Table.NamedAsIs]
  cases sc.table.columnByMember? name with
  | some c => simp
  | none => cases sc.strict <;> simp

theorem emitEach_rooted {es : List Expr}
    (h : ∀ e ∈ es, ∀ m beside, (e.rooted s).emit sc m beside = e.emit sc m beside) (m : Mode) (beside : Bool) :
    emitEach (rootedEach s es) sc m beside = emitEach es sc m beside := by
  rw [rootedEach_eq_map, emitEach_eq_map, emitEach_eq_map, List.map_map]
  exact List.map_congr_left fun e he => by rw [Function.comp_apply, h e he]

/-- **A source for every bare name** changes nothing where the names are
`NamedAsIs`. -/
theorem Expr.emit_rooted (hscope : sc.qualifier = some other) (hother : other ≠ sc.table.name) (e : Expr)
    (h : ∀ name ∈ e.bareNames, sc.table.NamedAsIs sc.strict name) (m : Mode) (beside : Bool) :
    (e.rooted (.ofTable other)).emit sc m beside = e.emit sc m beside := by
  induction e using Expr.induction generalizing m beside with
  | source => rfl
  | subquery => rfl
  | constant => rfl
  | member root path type =>
    rcases root with _ | root
    · rcases path with _ | ⟨name, _ | ⟨next, rest⟩⟩
      · rfl
      · have hname := h name (by simp [Expr.bareNames])
        rw [Expr.rooted, emit_rootedName hother, emit_bareName hscope, (columnTerm_eq_iff name).2 hname]
      · rfl
    · rfl
  | binary op left right ihl ihr =>
    simp only [Expr.bareNames, List.mem_append, or_imp, forall_and] at h
    simp only [Expr.rooted, Expr.emit, Expr.isNull_rooted, Expr.isConcatenation_rooted, Expr.needsParens_rooted,
      ihl h.1, ihr h.2]
  | conditional test ifTrue ifFalse ihc iht ihf =>
    simp only [Expr.bareNames, List.mem_append, or_imp, forall_and] at h
    simp only [Expr.rooted, Expr.emit, ihc h.1.1, iht h.1.2, ihf h.2]
  | call method receiver arguments ihr iha =>
    simp only [Expr.bareNames, List.mem_append, or_imp, forall_and, bareNamesEach_eq_flatMap] at h
    have harguments := emitEach_rooted (.ofTable other) fun e he m beside =>
      iha e he (fun name hname => h.2 name (List.mem_flatMap.2 ⟨e, he, hname⟩)) m beside
    have hreceiver : ∀ m, emitOption (rootedOption (.ofTable other) receiver) sc m = emitOption receiver sc m := by
      intro m
      cases receiver with
      | none => rfl
      | some e => simp only [rootedOption, emitOption, ihr e rfl h.1]
    simp only [Expr.rooted, Expr.emit, harguments, hreceiver]
    simp [rootedEach_eq_map]
  | project items ih =>
    simp only [Expr.bareNames, bareNamesEach_eq_flatMap] at h
    have hitems := emitEach_rooted (.ofTable other) fun e he m beside =>
      ih e he (fun name hname => h name (List.mem_flatMap.2 ⟨e, he, hname⟩)) m beside
    simp only [Expr.rooted, Expr.emit, hitems]
    simp [rootedEach_eq_map]
  | unary op operand ih =>
    cases op <;> simp only [Expr.rooted, Expr.emit, ih h]

theorem Query.emit_rooted {q : Query} (hsource : q.source.table = some other) (hother : other ≠ sc.table.name)
    (h : ∀ name ∈ q.bareNames, sc.table.NamedAsIs sc.strict name) :
    (q.rooted (.ofTable other)).emit sc = q.emit sc := by
  have hclause : ∀ e ∈ q.selector.toList ++ q.conditions ++ q.groupBy ++ q.orderBy.map (·.key), ∀ m beside,
      (e.rooted (.ofTable other)).emit (q.scope sc) m beside = e.emit (q.scope sc) m beside := by
    intro e he
    have hscope : (q.scope sc).qualifier = some other := hsource
    exact Expr.emit_rooted hscope hother e fun name hname => h name (List.mem_flatMap.2 ⟨e, he, hname⟩)
  simp only [List.mem_append, List.mem_map, Option.mem_toList, or_imp, forall_and] at hclause
  obtain ⟨⟨⟨hselector, hconditions⟩, hgroupBy⟩, horderBy⟩ := hclause
  have hitems : (q.rooted (.ofTable other)).emitItems (q.scope sc) = q.emitItems (q.scope sc) := by
    cases hsel : q.selector with
    | none => simp [Query.emitItems, Query.rooted, hsel]
    | some e => simp [Query.emitItems, Query.rooted, hsel, hselector e hsel]
  have horder : (q.rooted (.ofTable other)).orderBy.map (SortKey.emit · (q.scope sc)) =
      q.orderBy.map (SortKey.emit · (q.scope sc)) := by
    rw [Query.rooted, List.map_map]
    exact List.map_congr_left fun k hk => by simp [SortKey.emit, horderBy k.key ⟨k, hk, rfl⟩]
  have hmap : ∀ es : List Expr,
      (∀ e ∈ es, ∀ m beside, (e.rooted (.ofTable other)).emit (q.scope sc) m beside = e.emit (q.scope sc) m beside) →
      ((es.map (Expr.rooted (.ofTable other))).map fun e => (e.emit (q.scope sc) {} false).term) =
        es.map fun e => (e.emit (q.scope sc) {} false).term := by
    intro es hes
    rw [List.map_map]
    exact List.map_congr_left fun e he => by rw [Function.comp_apply, hes e he]
  have hscope : (q.rooted (.ofTable other)).scope sc = q.scope sc := rfl
  rw [Query.emit_eq, Query.emit_eq, hscope, hitems, horder]
  simp only [Query.rooted, Query.tableName, hmap _ hconditions, hmap _ hgroupBy]
  rfl

/-- A filter takes the columns of another table as they are named. -/
theorem resolve_of_ne {table : Table} (hother : other ≠ table.name) {path name : String}
    (hpath : pathSegments path = [name]) :
    (ColumnPath.parse path).resolve table (some other) = { operand := Fragment.qualified other name } := by
  simp [ColumnPath.resolve, ColumnPath.parse, ColumnPath.base, ColumnPath.isNested, hpath, hother]

/-- **Bare names in a statement on another table.** A filter on a name and a
name with its source mean the column of that name. A bare name means the same
column exactly when it is `NamedAsIs`; if all are, the statement is the one in
which every bare name has its source. -/
theorem bare_names_of_other_table {q : Query} {table : Table} (settings : Settings)
    (hsource : q.source.table = some other) (hother : other ≠ table.name) :
    (∀ path name, pathSegments path = [name] →
      (ColumnPath.parse path).resolve table (some (q.tableName table)) = { operand := Fragment.qualified other name }) ∧
    (∀ name type m beside, ∃ bare : Term Slot,
      (Expr.member (some (.ofTable other)) [name] type).emit (q.scope (.ofSettings table settings none)) m beside =
        .ofTerm (labelIf m [name] (.column (.table other) name [])) false ∧
      (Expr.member none [name] type).emit (q.scope (.ofSettings table settings none)) m beside =
        .ofTerm (labelIf m [name] bare) false ∧
      (bare = .column (.table other) name [] ↔ table.NamedAsIs settings.strict name)) ∧
    ((∀ name ∈ q.bareNames, table.NamedAsIs settings.strict name) →
      q.compile table settings = (q.rooted (.ofTable other)).compile table settings) := by
  have hname : q.tableName table = other := by rw [Query.tableName, hsource, Option.getD_some]
  refine ⟨fun path name hpath => ?_, fun name type m beside => ?_, fun h => ?_⟩
  · rw [hname]
    exact resolve_of_ne hother hpath
  · exact ⟨_, emit_rootedName hother name type m beside, emit_bareName hsource name type m beside,
      columnTerm_eq_iff name⟩
  · have hemit : (q.rooted (.ofTable other)).emit (.ofSettings table settings none) =
        q.emit (.ofSettings table settings none) := Query.emit_rooted hsource hother h
    rw [Query.compile, Query.compile, hemit]

/-- A table whose column `e_mail` is known as `Email`. -/
def mailTable : Table :=
  { schema := none, name := "t", columns := ⟨[{ dbName := "e_mail", memberName := some "Email" }]⟩ }

/-- The rows of another table that a condition and a filter on one name keep. -/
def keptOrders (name : String) : Query :=
  { source := .ofTable "orders", selector := none, joins := [],
    conditions := [.binary .equal (.member none [name] .integer) (.constant (.int 1))],
    filters := [.compare name .equal ⟨"eq", .int 1⟩], groupBy := [],
    orderBy := [⟨.member none [name] .integer, .ascending⟩],
    limit := none, offset := none, distinct := false, count := false }

/-- A name that the described table does not know. -/
theorem keptOrders_total :
    (keptOrders "total").source.table = some "orders" ∧ "orders" ≠ mailTable.name ∧
      (∀ name ∈ (keptOrders "total").bareNames, mailTable.NamedAsIs false name) ∧
      (keptOrders "total").compile mailTable {} =
        ((keptOrders "total").rooted (.ofTable "orders")).compile mailTable {} := by
  have hnames : ∀ name ∈ (keptOrders "total").bareNames, mailTable.NamedAsIs false name := by decide
  exact ⟨rfl, by decide, hnames, (bare_names_of_other_table {} rfl (by decide)).2.2 hnames⟩

/-- A name that it knows means two columns of the other table. -/
theorem keptOrders_mail :
    ((keptOrders "Email").compile mailTable {}).toOption.map (·.text) =
      some ("SELECT \"orders\".* FROM \"orders\" WHERE (\"orders\".\"e_mail\" = @p0) AND " ++
        "(\"orders\".\"Email\" = @eq) ORDER BY \"orders\".\"e_mail\" ASC") := by
  decide +kernel

end ParamQuery
