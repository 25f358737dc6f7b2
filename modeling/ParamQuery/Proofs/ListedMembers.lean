/-
Sources that list all their members. Without a list a source takes the columns of
its table as they stand; with one every name is looked up again, first among the
members and then among the names in the database. Where neither names nor members
coincide, each column is found by its own member (`columnByMember?_effectiveName`),
although that may also be the name of another column, so that both ways give the
same columns.

A list counts for nothing but the columns it gives (`Expr.emit_relisted`), so all
sources of a query may list all their members or none (`listed_members`).
-/
import ParamQuery.Proofs.SubqueryPlaces
import ParamQuery.Proofs.TableBuilding

namespace ParamQuery

/-! ## Columns by their members -/

namespace Table

/-- The names that expressions use for the columns, in order. -/
def members (t : Table) : List String := t.columns.toList.map Column.effectiveName

theorem find?_eq_some_of_unique {α : Type} {p : α → Bool} {l : List α} {a : α} (ha : a ∈ l) (hp : p a)
    (hunique : ∀ b ∈ l, p b → b = a) : l.find? p = some a := by
  obtain ⟨b, hb⟩ := Option.isSome_iff_exists.1 (List.find?_isSome.2 ⟨a, ha, hp⟩)
  rw [hb, hunique b (List.mem_of_find?_eq_some hb) (List.find?_some hb)]

/-- **A column is found by its member.** The name of another column cannot come
before it: the members are searched first, and a column without one has its name
for a member, which no other column has. -/
theorem columnByMember?_effectiveName {t : Table} (hnames : t.names.Nodup) (hmembers : t.members.Nodup) {c : Column}
    (hc : c ∈ t.columns.toList) : t.columnByMember? c.effectiveName = some c := by
  have hmember : ∀ b ∈ t.columns.toList, b.memberName = some c.effectiveName → b = c := by
    intro b hb hname
    have heffective : b.effectiveName = c.effectiveName := by rw [Column.effectiveName, hname, Option.getD_some]
    exact List.inj_on_of_nodup_map hmembers hb hc heffective
  cases hname : c.memberName with
  | some name =>
    have heffective : c.effectiveName = name := by rw [Column.effectiveName, hname, Option.getD_some]
    have hfound : t.columns.toList.find? (·.memberName == some c.effectiveName) = some c :=
      find?_eq_some_of_unique hc (by simp [hname, heffective]) fun b hb h => hmember b hb (by simpa using h)
    rw [columnByMember?, hfound, Option.some_or]
  | none =>
    have heffective : c.effectiveName = c.dbName := by rw [Column.effectiveName, hname, Option.getD_none]
    have hnone : t.columns.toList.find? (·.memberName == some c.effectiveName) = none := by
      refine List.find?_eq_none.2 fun b hb h => ?_
      have hb' := hmember b hb (by simpa using h)
      rw [hb', hname] at h
      cases h
    have hfound : t.columns.toList.find? (·.dbName == c.dbName) = some c :=
      find?_eq_some_of_unique hc (by simp) fun b hb h =>
        List.inj_on_of_nodup_map hnames hb hc (by simpa using h)
    rw [columnByMember?, hnone, Option.none_or, columnByName?, heffective, hfound]

end Table

/-- The list of all members gives the columns that no list gives. -/
theorem Scope.sourceColumns_members {sc : Scope} (hnames : sc.table.names.Nodup) (hmembers : sc.table.members.Nodup)
    {own : Option String} (hown : sc.isForeign own = false) :
    sc.sourceColumns own sc.table.members = sc.sourceColumns own [] := by
  have hlookup : ∀ c ∈ sc.table.columns.toList,
      (c.effectiveName, ((sc.column? own c.effectiveName).map (·.dbName)).getD c.effectiveName) =
        (c.effectiveName, c.dbName) := by
    intro c hc
    simp [Scope.column?, hown, Table.columnByMember?_effectiveName hnames hmembers hc]
  by_cases hempty : sc.table.members = []
  · rw [hempty]
  · simp only [Scope.sourceColumns, List.isEmpty_iff, hempty, hown, if_true, if_false, Bool.false_eq_true]
    rw [Table.members, List.map_map]
    exact List.map_congr_left hlookup

/-- Of its members a source is written by the columns that they give. -/
theorem Source.emit_members (s : Source) {sc : Scope} {members members' : List String}
    (h : sc.sourceColumns s.table members = sc.sourceColumns s.table members') (m : Mode) (beside : Bool) :
    { s with members := members }.emit sc m beside = { s with members := members' }.emit sc m beside := by
  obtain ⟨typeName, _, own, _ | ⟨outer, inner⟩⟩ := s
  · simp only [Source.emit, h]
  · simp only [Source.emit, h]

/-! ## Other lists of members -/

section Relisted

variable (f : Option String → List String → List String)

mutual
/-- The expression with other members in all its sources: `f` makes them of the table
of a source and its members. -/
def Expr.relisted : Expr → Expr
  | .source s => .source s.relisted
  | .subquery q => .subquery q.relisted
  | .binary op left right => .binary op left.relisted right.relisted
  | .conditional test ifTrue ifFalse => .conditional test.relisted ifTrue.relisted ifFalse.relisted
  | .constant value => .constant value
  | .member root path type => .member (relistedRoot root) path type
  | .call method receiver arguments => .call method (relistedOption receiver) (relistedEach arguments)
  | .project items => .project (relistedEach items)
  | .unary op operand => .unary op operand.relisted
/-- A source with other members listed, also in its keys. -/
def Source.relisted : Source → Source
  | ⟨typeName, members, table, none⟩ => ⟨typeName, f table members, table, none⟩
  | ⟨typeName, members, table, some ⟨outer, inner⟩⟩ =>
    ⟨typeName, f table members, table, some ⟨outer.relisted, inner.relisted⟩⟩
/-- The root of a member, relisted. -/
def relistedRoot : Option Source → Option Source
  | none => none
  | some s => some s.relisted
/-- An expression that may be missing, relisted. -/
def relistedOption : Option Expr → Option Expr
  | none => none
  | some e => some e.relisted
/-- Some expressions, each relisted. -/
def relistedEach : List Expr → List Expr
  | [] => []
  | e :: rest => e.relisted :: relistedEach rest
/-- The joins with their keys relisted. -/
def relistedJoins : List Join → List Join
  | [] => []
  | ⟨kind, table, outer, inner⟩ :: rest => ⟨kind, table, outer.relisted, inner.relisted⟩ :: relistedJoins rest
/-- The sort keys, each relisted. -/
def relistedSortKeys : List SortKey → List SortKey
  | [] => []
  | ⟨key, direction⟩ :: rest => ⟨key.relisted, direction⟩ :: relistedSortKeys rest
/-- The query with other members in all its sources. -/
def Query.relisted : Query → Query
  | ⟨source, selector, joins, conditions, filters, groupBy, orderBy, limit, offset, distinct, count⟩ =>
    ⟨source.relisted, relistedOption selector, relistedJoins joins, relistedEach conditions, filters,
      relistedEach groupBy, relistedSortKeys orderBy, limit, offset, distinct, count⟩
end

theorem relistedEach_eq_map (es : List Expr) : relistedEach f es = es.map (Expr.relisted f) := by
  induction es with
  | nil => rfl
  | cons e es ih => simp [relistedEach, ih]

theorem relistedJoins_eq_map (js : List Join) :
    relistedJoins f js = js.map fun j => { j with outer := j.outer.relisted f, inner := j.inner.relisted f } := by
  induction js with
  | nil => rfl
  | cons j js ih =>
    obtain ⟨kind, table, outer, inner⟩ := j
    simp [relistedJoins, ih]

theorem relistedSortKeys_eq_map (ks : List SortKey) :
    relistedSortKeys f ks = ks.map fun k => { k with key := k.key.relisted f } := by
  induction ks with
  | nil => rfl
  | cons k ks ih =>
    obtain ⟨key, direction⟩ := k
    simp [relistedSortKeys, ih]

@[simp] theorem Source.table_relisted (s : Source) : (s.relisted f).table = s.table := by
  obtain ⟨typeName, members, table, _ | ⟨outer, inner⟩⟩ := s <;> rfl

@[simp] theorem Expr.valueType_relisted (e : Expr) : (e.relisted f).valueType = e.valueType := by
  induction e using Expr.induction with
  | binary op left right ihl ihr => simp [Expr.relisted, Expr.valueType, ihl, ihr]
  | conditional test ifTrue ifFalse _ iht ihf => simp [Expr.relisted, Expr.valueType, iht, ihf]
  | unary op operand ih => cases op <;> simp [Expr.relisted, Expr.valueType, ih]
  | _ => simp [Expr.relisted, Expr.valueType]

@[simp] theorem Expr.isNull_relisted (e : Expr) : (e.relisted f).isNull = e.isNull := by
  cases e <;> rfl

@[simp] theorem Expr.isConcatenation_relisted (op : BinaryOp) (left right : Expr) :
    Expr.isConcatenation op (left.relisted f) (right.relisted f) = Expr.isConcatenation op left right := by
  simp [Expr.isConcatenation]

@[simp] theorem Expr.needsParens_relisted (op : BinaryOp) (concat : Bool) (precedence : Nat) (onRight : Bool) (m : Mode)
    (e : Expr) :
    needsParens op concat precedence onRight m (e.relisted f) = needsParens op concat precedence onRight m e := by
  have hprecedence : (e.relisted f).precedence? m = e.precedence? m := by
    rcases e with _ | _ | _ | _ | _ | _ | _ | _ | ⟨_ | _ | _, _⟩ <;> simp [Expr.relisted, Expr.precedence?]
  have hoperation : (e.relisted f).isOperation op concat = e.isOperation op concat := by
    cases e <;> simp [Expr.relisted, Expr.isOperation]
  simp [needsParens, hprecedence, hoperation]

end Relisted

/-! ## Emission -/

section Emission

variable {f : Option String → List String → List String} {table : Table}

/-- The other members give the same columns, in every scope of the table. -/
def KeepsColumns (f : Option String → List String → List String) (table : Table) : Prop :=
  ∀ sc : Scope, sc.table = table → ∀ own members, sc.sourceColumns own (f own members) = sc.sourceColumns own members

/-- Written the same in every scope of the table, in every mode. -/
def EmitsRelisted (f : Option String → List String → List String) (table : Table) (e : Expr) : Prop :=
  ∀ sc : Scope, sc.table = table → ∀ m beside, (e.relisted f).emit sc m beside = e.emit sc m beside

variable (hf : KeepsColumns f table)
include hf

theorem Source.emit_relisted {s : Source} (ih : s.All (EmitsRelisted f table)) {sc : Scope} (hsc : sc.table = table)
    (m : Mode) (beside : Bool) : (s.relisted f).emit sc m beside = s.emit sc m beside := by
  obtain ⟨typeName, members, own, _ | ⟨outer, inner⟩⟩ := s
  · simp only [Source.relisted, Source.emit, hf sc hsc]
  · obtain ⟨hOuter, hInner⟩ := ih _ rfl
    have hcopy : ({ sc with qualifier := some ("temp_" ++ sc.tableName own) } : Scope).table = table := hsc
    simp only [Source.relisted, Source.emit, hf sc hsc, hInner _ hcopy, hOuter sc hsc]

omit hf in
theorem emitEach_relisted {es : List Expr} (ih : ∀ e ∈ es, EmitsRelisted f table e) {sc : Scope}
    (hsc : sc.table = table)
    (m : Mode) (beside : Bool) : emitEach (relistedEach f es) sc m beside = emitEach es sc m beside := by
  rw [relistedEach_eq_map, emitEach_eq_map, emitEach_eq_map, List.map_map]
  exact List.map_congr_left fun e he => by rw [Function.comp_apply, ih e he sc hsc]

theorem Query.emit_relisted_of_all {q : Query} (ih : q.All (EmitsRelisted f table)) {sc : Scope}
    (hsc : sc.table = table) :
    (q.relisted f).emit sc = q.emit sc := by
  have hscope : (q.scope sc).table = table := hsc
  have hmap {es : List Expr} (h : ∀ e ∈ es, EmitsRelisted f table e) :
      emitEach (relistedEach f es) (q.scope sc) {} false = emitEach es (q.scope sc) {} false :=
    emitEach_relisted h hscope {} false
  have hselector : emitOption (relistedOption f q.selector) (q.scope sc) {} =
      emitOption q.selector (q.scope sc) {} := by
    cases hsel : q.selector with
    | none => rfl
    | some e => simp only [relistedOption, emitOption, ih.selector e hsel _ hscope]
  have hjoins : emitJoins (relistedJoins f q.joins) (q.scope sc) = emitJoins q.joins (q.scope sc) := by
    rw [relistedJoins_eq_map, emitJoins_eq_map, emitJoins_eq_map, List.map_map]
    refine List.map_congr_left fun j hj => ?_
    simp only [Function.comp_apply, Join.emit, (ih.joins j hj).1 _ hscope, (ih.joins j hj).2 _ hscope]
  have horder : emitSortKeys (relistedSortKeys f q.orderBy) (q.scope sc) = emitSortKeys q.orderBy (q.scope sc) := by
    rw [relistedSortKeys_eq_map, emitSortKeys_eq_map, emitSortKeys_eq_map, List.map_map]
    refine List.map_congr_left fun k hk => ?_
    simp only [Function.comp_apply, SortKey.emit, ih.orderBy k hk _ hscope]
  have hsource := Source.emit_relisted hf ih.source hscope {} false
  have hconditions := hmap ih.conditions
  have hgroupBy := hmap ih.groupBy
  obtain ⟨source, selector, joins, conditions, filters, groupBy, orderBy, limit, offset, distinct, count⟩ := q
  simp only [Query.scope] at hsource hselector hjoins hconditions hgroupBy horder
  simp only [Query.relisted, Query.emit, Source.table_relisted, hsource, hselector, hjoins, hconditions, hgroupBy,
    horder]

/-- **A list counts only for the columns it gives.** -/
theorem Expr.emit_relisted (e : Expr) : EmitsRelisted f table e := by
  induction e using Expr.induction with
  | source s ih =>
    intro sc hsc m beside
    simp only [Expr.relisted, Expr.emit, Source.emit_relisted hf ih hsc]
  | subquery q ih =>
    intro sc hsc m beside
    simp only [Expr.relisted, Expr.emit, Query.emit_relisted_of_all hf ih hsc]
  | binary op left right ihl ihr =>
    intro sc hsc m beside
    simp only [Expr.relisted, Expr.emit, Expr.isNull_relisted, Expr.isConcatenation_relisted, Expr.needsParens_relisted,
      ihl sc hsc, ihr sc hsc]
  | conditional test ifTrue ifFalse ihc iht ihf =>
    intro sc hsc m beside
    simp only [Expr.relisted, Expr.emit, ihc sc hsc, iht sc hsc, ihf sc hsc]
  | constant value => exact fun _ _ _ _ => rfl
  | member root path type ih =>
    intro sc hsc m beside
    cases root with
    | none => rfl
    | some s =>
      have hroot := Source.emit_relisted hf (ih s rfl) hsc
      simp only [Expr.relisted, relistedRoot, Expr.emit, emitRoot_some, hroot, Option.bind_some, Source.table_relisted]
  | call method receiver arguments ihr iha =>
    intro sc hsc m beside
    have hreceiver : emitOption (relistedOption f receiver) sc m.operand = emitOption receiver sc m.operand := by
      cases receiver with
      | none => rfl
      | some e => simp only [relistedOption, emitOption, ihr e rfl sc hsc]
    have hlength : (relistedEach f arguments).length = arguments.length := by rw [relistedEach_eq_map, List.length_map]
    simp only [Expr.relisted, Expr.emit, hreceiver, hlength, emitEach_relisted iha hsc]
  | project items ih =>
    intro sc hsc m beside
    have hempty : (relistedEach f items).isEmpty = items.isEmpty := by rw [relistedEach_eq_map, List.isEmpty_map]
    simp only [Expr.relisted, Expr.emit, hempty, emitEach_relisted ih hsc]
  | unary op operand ih =>
    intro sc hsc m beside
    cases op <;> simp only [Expr.relisted, Expr.emit, ih sc hsc]

theorem Query.compile_relisted (q : Query) (settings : Settings) :
    (q.relisted f).compile table settings = q.compile table settings := by
  have hemit : (q.relisted f).emit (.ofSettings table settings none) = q.emit (.ofSettings table settings none) :=
    Query.emit_relisted_of_all hf (.intro (Expr.emit_relisted hf) q) rfl
  rw [Query.compile, Query.compile, hemit]

end Emission

/-! ## All members or none -/

/-- All members of the table, for a source on the table that lists none. -/
def Table.listing (t : Table) (own : Option String) (members : List String) : List String :=
  if members.isEmpty && (own == none || own == some t.name) then t.members else members

/-- The query in which every source on the table that lists no members lists all of
them. -/
def Query.listed (q : Query) (t : Table) : Query := q.relisted t.listing

theorem Scope.isForeign_of_own {sc : Scope} {own : Option String} (h : own = none ∨ own = some sc.table.name) :
    sc.isForeign own = false := by
  rcases h with rfl | rfl <;> simp [Scope.isForeign]

theorem Table.keepsColumns_listing {t : Table} (hnames : t.names.Nodup) (hmembers : t.members.Nodup) :
    KeepsColumns t.listing t := by
  rintro sc rfl own members
  unfold Table.listing
  split
  · rename_i h
    simp only [Bool.and_eq_true, List.isEmpty_iff, Bool.or_eq_true, beq_iff_eq] at h
    obtain ⟨rfl, hown⟩ := h
    exact Scope.sourceColumns_members hnames hmembers (Scope.isForeign_of_own hown)
  · rfl

/-- **Listing all members is listing none.** On a table in which neither the names of
the columns nor their members coincide, a source on the table with the list of all
members is written, or refused, as the source without a list is, wherever it stands;
and in a whole query, with those inside of it, every source without a list may list all
members. -/
theorem listed_members {t : Table} (hnames : t.names.Nodup) (hmembers : t.members.Nodup) :
    (∀ (s : Source) (p : Surroundings) (settings : Settings), s.table = none ∨ s.table = some t.name →
      p.visit t settings (.source { s with members := t.members }) =
        p.visit t settings (.source { s with members := [] })) ∧
    ∀ (q : Query) (settings : Settings), (q.listed t).compile t settings = q.compile t settings := by
  refine ⟨fun s p settings hown => ?_, fun q settings =>
    q.compile_relisted (Table.keepsColumns_listing hnames hmembers) settings⟩
  have hcolumns : (Scope.ofSettings t settings p.qualifier).sourceColumns s.table t.members =
      (Scope.ofSettings t settings p.qualifier).sourceColumns s.table [] :=
    Scope.sourceColumns_members hnames hmembers (Scope.isForeign_of_own hown)
  have hemit : (Expr.source { s with members := t.members }).emit (.ofSettings t settings p.qualifier) p.mode p.beside =
      (Expr.source { s with members := [] }).emit (.ofSettings t settings p.qualifier) p.mode p.beside :=
    s.emit_members hcolumns p.mode p.beside
  simp only [Surroundings.visit, hemit]

/-- Columns whose members are the names of other columns. -/
def crossedNames : Table :=
  { name := "t", columns := ⟨[{ dbName := "a", memberName := some "b" }, { dbName := "b", memberName := some "c" },
    { dbName := "d" }]⟩ }

/-- Groups of their rows, with the given members. -/
def crossedGroups (members : List String) : Source :=
  ⟨"T", members, none, some ⟨.member none ["c"] .text, .call .toLower (some (.member none ["b"] .text)) []⟩⟩

/-- The member `b` is the column `a`, and not the column of that name. -/
theorem crossedNames_listed :
    crossedNames.names.Nodup ∧ crossedNames.members = ["b", "c", "d"] ∧ crossedNames.members.Nodup ∧
      behindValue.visit crossedNames {} (.source (crossedGroups ["b", "c", "d"])) =
        behindValue.visit crossedNames {} (.source (crossedGroups [])) ∧
      (behindValue.visit crossedNames {} (.source (crossedGroups []))).1 =
        .ok ("\"a\".\"a\" AS \"T.b\", \"a\".\"b\" AS \"T.c\", \"a\".\"d\" AS \"T.d\", (SELECT COUNT(*) FROM \"a\"" ++
          " AS \"temp_a\" WHERE LOWER(\"temp_a\".\"a\") = \"a\".\"b\") AS \"T.__GROUP_COUNT\"") := by
  have hnames : crossedNames.names.Nodup := by decide
  have hmembers : crossedNames.members.Nodup := by decide
  exact ⟨hnames, rfl, hmembers, (listed_members hnames hmembers).1 (crossedGroups []) behindValue {} (.inl rfl),
    by decide +kernel⟩

end ParamQuery
