/-
The columns in a statement, each with the table in front of it (`Sql.Term.columns`), when
members are resolved strictly. A member of the described table is then written as a
column of that table, wherever it stands (`Expr.namesColumns`); without a column it is
refused. Nothing is refused for the members that a source lists or for the path of a
filter: what no column is found for is taken as it is.

`strict_columns` says so of a compiled query, and `strict_fallbacks` shows columns that a
table does not have in statements on it.
-/
import ParamQuery.Proofs.Qualification
import ParamQuery.Proofs.Refusals
import ParamQuery.Proofs.WhereClause

namespace ParamQuery

open Sql

/-! ## Columns of terms -/

namespace Sql

variable {β : Type}

/-- The table that a term is nothing but the name of. -/
def Term.tableName? : Term β → Option String
  | .table name => some name
  | _ => none

mutual
/-- The columns in a term that have a table in front of them, as pairs of the table and
the column. -/
def Term.columns : Term β → List (String × String)
  | .column qualifier name _ => (qualifier.tableName?.toList.map fun table => (table, name)) ++ qualifier.columns
  | .slot _ | .table _ | .allColumns _ | .countAll => []
  | .labelled t _ | .nullTest t _ | .negation t | .paren t | .lengthOf t => t.columns
  | .list items => termColumns items
  | .operation left _ right => left.columns ++ right.columns
  | .call _ arguments => termColumns arguments
  | .caseWhen arms otherwise => armColumns arms ++ otherwise.columns
  | .groupCount _ _ inner outer => inner.columns ++ outer.columns
  | .subquery s => s.columns
/-- The columns in each of some terms. -/
def termColumns : List (Term β) → List (String × String)
  | [] => []
  | t :: rest => t.columns ++ termColumns rest
/-- The columns in each of some arms. -/
def armColumns : List (Arm β) → List (String × String)
  | [] => []
  | ⟨guards, value⟩ :: rest => termColumns guards ++ value.columns ++ armColumns rest
/-- The columns in the keys of the joins. -/
def joinColumns : List (JoinOn β) → List (String × String)
  | [] => []
  | ⟨_, _, outer, inner⟩ :: rest => outer.columns ++ inner.columns ++ joinColumns rest
/-- The columns in the sort keys. -/
def sortColumns : List (SortTerm β) → List (String × String)
  | [] => []
  | ⟨key, _⟩ :: rest => key.columns ++ sortColumns rest
/-- The columns in a statement. -/
def Select.columns : Select β → List (String × String)
  | ⟨_, items, _, _, joins, conditions, groupBy, orderBy, _, _⟩ =>
    items.columns ++ joinColumns joins ++ termColumns conditions ++ termColumns groupBy ++ sortColumns orderBy
end

theorem termColumns_eq_flatMap (ts : List (Term β)) : termColumns ts = ts.flatMap Term.columns := by
  induction ts with
  | nil => rfl
  | cons t ts ih => simp [termColumns, ih]

theorem armColumns_eq_flatMap (arms : List (Arm β)) :
    armColumns arms = arms.flatMap fun a => a.guards.flatMap Term.columns ++ a.value.columns := by
  induction arms with
  | nil => rfl
  | cons a arms ih =>
    obtain ⟨guards, value⟩ := a
    simp [armColumns, termColumns_eq_flatMap, ih]

theorem joinColumns_eq_flatMap (js : List (JoinOn β)) :
    joinColumns js = js.flatMap fun j => j.outer.columns ++ j.inner.columns := by
  induction js with
  | nil => rfl
  | cons j js ih =>
    obtain ⟨keyword, table, outer, inner⟩ := j
    simp [joinColumns, ih]

theorem sortColumns_eq_flatMap (ks : List (SortTerm β)) : sortColumns ks = ks.flatMap (·.key.columns) := by
  induction ks with
  | nil => rfl
  | cons k ks ih =>
    obtain ⟨key, keyword⟩ := k
    simp [sortColumns, ih]

theorem Select.columns_eq (s : Select β) :
    s.columns = s.items.columns ++ (s.joins.flatMap fun j => j.outer.columns ++ j.inner.columns) ++
      s.conditions.flatMap Term.columns ++ s.groupBy.flatMap Term.columns ++ s.orderBy.flatMap (·.key.columns) := by
  obtain ⟨_, items, _, _, joins, conditions, groupBy, orderBy, _, _⟩ := s
  simp [Select.columns, joinColumns_eq_flatMap, termColumns_eq_flatMap, sortColumns_eq_flatMap]

section Map

variable {γ : Type} (f : β → γ)

theorem Select.columns_map_of {s : Select β} (h : s.All fun t => (t.map f).columns = t.columns) :
    (s.map f).columns = s.columns := by
  have hjoins : (s.joins.map (JoinOn.map f)).flatMap (fun j => j.outer.columns ++ j.inner.columns) =
      s.joins.flatMap fun j => j.outer.columns ++ j.inner.columns := by
    rw [List.flatMap_map]
    refine List.flatMap_congr fun j hj => ?_
    simp [JoinOn.map, (h.joins j hj).1, (h.joins j hj).2]
  have hkeys : (s.orderBy.map (SortTerm.map f)).flatMap (·.key.columns) = s.orderBy.flatMap (·.key.columns) := by
    rw [List.flatMap_map]
    exact List.flatMap_congr fun k hk => h.orderBy k hk
  rw [Select.columns_eq, Select.columns_eq, Select.map_eq]
  simp only [h.items, hjoins, hkeys, List.flatMap_map, List.flatMap_congr h.conditions, List.flatMap_congr h.groupBy]

/-- Filling the slots of a term leaves its columns. -/
theorem Term.columns_map (t : Term β) : (t.map f).columns = t.columns := by
  induction t using Term.induction with
  | slot b => rfl
  | table name => rfl
  | allColumns table => rfl
  | column qualifier name steps ih =>
    have htable : (qualifier.map f).tableName? = qualifier.tableName? := by cases qualifier <;> rfl
    simp only [Term.map_column, Term.columns, ih, htable]
  | countAll => rfl
  | labelled t label ih => exact ih
  | list items ih =>
    simp only [Term.map_list, Term.columns, termColumns_eq_flatMap, List.flatMap_map]
    exact List.flatMap_congr ih
  | operation left op right ihl ihr => simp only [Term.map_operation, Term.columns, ihl, ihr]
  | nullTest t negated ih => exact ih
  | negation t ih => exact ih
  | paren t ih => exact ih
  | lengthOf t ih => exact ih
  | call template arguments ih =>
    simp only [Term.map_call, Term.columns, termColumns_eq_flatMap, List.flatMap_map]
    exact List.flatMap_congr ih
  | caseWhen arms otherwise iha iho =>
    simp only [Term.map_caseWhen, Term.columns, armColumns_eq_flatMap, List.flatMap_map, iho]
    refine congrArg (· ++ otherwise.columns) (List.flatMap_congr fun a ha => ?_)
    simp only [Arm.map, List.flatMap_map, (iha a ha).2, List.flatMap_congr (iha a ha).1]
  | groupCount table copy inner outer ihi iho => simp only [Term.map_groupCount, Term.columns, ihi, iho]
  | subquery s ih => exact Select.columns_map_of f ih

theorem Select.columns_map (s : Select β) : (s.map f).columns = s.columns :=
  Select.columns_map_of f (Select.All.intro (Term.columns_map f) s)

end Map

end Sql

/-! ## Names that a table admits -/

/-- A name that may stand behind the name of the table: that of one of its columns, or
one of the given names that no column is found for. -/
def Table.Admits (table : Table) (unknown : List String) (name : String) : Prop :=
  (∃ c ∈ table.columns.toList, c.dbName = name) ∨ name ∈ unknown ∧ table.columnByMember? name = none

/-- The name of a column that is found, or else the name that it is looked up by. -/
theorem Table.admits_getD {table : Table} {unknown : List String} {name : String} (h : name ∈ unknown) :
    table.Admits unknown (((table.columnByMember? name).map (·.dbName)).getD name) := by
  cases hc : table.columnByMember? name with
  | none => exact .inr ⟨h, hc⟩
  | some c => exact .inl ⟨c, Table.mem_of_columnByMember? hc, rfl⟩

/-- All columns with the table in front of them are admitted. -/
def Table.AdmitsAll (table : Table) (unknown : List String) (columns : List (String × String)) : Prop :=
  ∀ name, (table.name, name) ∈ columns → table.Admits unknown name

section AdmitsAll

variable {table : Table} {unknown : List String}

@[simp] theorem Table.admitsAll_nil : table.AdmitsAll unknown [] := fun _ h => by cases h

@[simp] theorem Table.admitsAll_append {columns columns' : List (String × String)} :
    table.AdmitsAll unknown (columns ++ columns') ↔
      table.AdmitsAll unknown columns ∧ table.AdmitsAll unknown columns' := by
  simp only [Table.AdmitsAll, List.mem_append, or_imp, forall_and]

theorem Table.admitsAll_flatMap {α : Type} {l : List α} {columns : α → List (String × String)}
    (h : ∀ a ∈ l, table.AdmitsAll unknown (columns a)) : table.AdmitsAll unknown (l.flatMap columns) := by
  intro name hname
  obtain ⟨a, ha, hmem⟩ := List.mem_flatMap.1 hname
  exact h a ha name hmem

theorem Table.admitsAll_list {ts : List (Term Slot)} (h : ∀ t ∈ ts, table.AdmitsAll unknown t.columns) :
    table.AdmitsAll unknown (Term.list ts).columns := by
  rw [Term.columns, termColumns_eq_flatMap]
  exact Table.admitsAll_flatMap h

end AdmitsAll

/-! ## Emission -/

section Emission

variable {sc : Scope} {unknown : List String}

theorem caseTerm_admitsAll {d : Decision (Term Slot)} (h : d.All fun t => sc.table.AdmitsAll unknown t.columns) :
    sc.table.AdmitsAll unknown (caseTerm d).columns := by
  cases d with
  | leaf t => exact h
  | test condition ifTrue ifFalse =>
    obtain ⟨harms, hvalue⟩ := h.flattenUnder (List.forall_mem_nil _)
    rw [caseTerm, Term.columns, armColumns_eq_flatMap, List.flatMap_map, Table.admitsAll_append]
    · refine ⟨Table.admitsAll_flatMap fun arm harm => ?_, hvalue⟩
      obtain ⟨hguards, harm⟩ := harms arm harm
      exact Table.admitsAll_append.2 ⟨Table.admitsAll_flatMap hguards, harm⟩
    · simp

theorem columns_parenIf (wrap : Bool) (t : Term Slot) : (parenIf wrap t).columns = t.columns := by
  cases wrap <;> rfl

theorem columns_lengths (n : Nat) (t : Term Slot) : (lengths n t).columns = t.columns := by
  induction n with
  | zero => rfl
  | succ n ih => exact ih

theorem columns_labelIf (m : Mode) (path : List String) (t : Term Slot) : (labelIf m path t).columns = t.columns := by
  unfold labelIf
  split <;> rfl

/-- **A member is a column.** Strictly, one that is written behind the described table
has the name of a column. -/
theorem columnTerm_admitsAll (hstrict : sc.strict = true) {own : Option String} {qualifier : Term Slot}
    (hown : qualifier.tableName? = some sc.table.name → sc.isForeign own = false)
    (hq : sc.table.AdmitsAll unknown qualifier.columns) (path : List String) :
    sc.table.AdmitsAll unknown (columnTerm sc own qualifier path).columns := by
  have hcolumn {name : String} (steps : List String)
      (hname : qualifier.tableName? = some sc.table.name → sc.table.Admits unknown name) :
      sc.table.AdmitsAll unknown (Term.column qualifier name steps).columns := by
    rw [Term.columns, Table.admitsAll_append]
    refine ⟨fun n hn => ?_, hq⟩
    obtain ⟨t, ht, heq⟩ := List.mem_map.1 hn
    cases heq
    exact hname (Option.mem_toList.1 ht)
  unfold columnTerm
  split
  · exact Table.admitsAll_nil
  · rename_i base steps
    split
    · rename_i c hc
      refine hcolumn steps fun _ => .inl ⟨c, ?_, rfl⟩
      unfold Scope.column? at hc
      split at hc
      · cases hc
      · exact Table.mem_of_columnByMember? hc
    · split
      · refine Table.admitsAll_list fun t ht => ?_
        simp only [List.mem_cons, List.not_mem_nil, or_false] at ht
        rcases ht with rfl | rfl
        · exact hq
        · exact Table.admitsAll_nil
      · -- a member without a column belongs to another table
        rename_i hforeign
        refine hcolumn steps fun ht => ?_
        simp [hstrict, hown ht] at hforeign

/-- The members that a source lists, unless it names another table. -/
def Source.ownMembers (table : Table) (s : Source) : List String :=
  if s.table.all (· == table.name) then s.members else []

/-- Only a source without another table is written behind the described one. -/
theorem Scope.isForeign_of_tableName {own : Option String} (h : sc.tableName own = sc.table.name) :
    sc.isForeign own = false := by
  cases own with
  | none => rfl
  | some t => simpa [Scope.isForeign, Scope.tableName] using h

theorem Source.admits_sourceColumns {s : Source} (h : sc.tableName s.table = sc.table.name) :
    ∀ c ∈ sc.sourceColumns s.table s.members, sc.table.Admits (s.ownMembers sc.table) c.2 := by
  have hown := Scope.isForeign_of_tableName h
  intro c hc
  unfold Scope.sourceColumns at hc
  split at hc
  · rw [hown] at hc
    obtain ⟨column, hcolumn, rfl⟩ := List.mem_map.1 hc
    exact .inl ⟨column, hcolumn, rfl⟩
  · obtain ⟨member, hmember, rfl⟩ := List.mem_map.1 hc
    have hlisted : member ∈ s.ownMembers sc.table := by
      have hall : s.table.all (· == sc.table.name) := by
        simpa [Option.all_eq_true] using Scope.isForeign_eq_false_iff.1 hown
      rwa [Source.ownMembers, if_pos hall]
    simpa [Scope.column?, hown] using sc.table.admits_getD hlisted

/-- The members that an expression lists as columns: those of a source that is selected,
or that counts groups in front of a member. -/
def Expr.sourceMembers (table : Table) : Expr → List String
  | .source s => s.ownMembers table
  | .subquery q => if q.count || q.selector.isSome then [] else q.source.ownMembers table
  | .member root _ _ => (root.filter (·.groupJoin.isSome)).toList.flatMap (Source.ownMembers table)
  | _ => []

/-- Whatever its place, an expression is written with columns of the described table, up
to the members that sources in it list. -/
def Expr.NamesColumns (e : Expr) : Prop :=
  ∀ (sc : Scope) (m : Mode) (beside : Bool) (unknown : List String), sc.strict = true →
    (∀ x ∈ e.subterms, x.sourceMembers sc.table ⊆ unknown) →
    (e.emit sc m beside).tree.All fun t => sc.table.AdmitsAll unknown t.columns

theorem Expr.NamesColumns.term {e : Expr} (h : e.NamesColumns) (m : Mode) (beside : Bool) (hstrict : sc.strict = true)
    (hlisted : ∀ x ∈ e.subterms, x.sourceMembers sc.table ⊆ unknown) :
    sc.table.AdmitsAll unknown (e.emit sc m beside).term.columns :=
  caseTerm_admitsAll (h sc m beside unknown hstrict hlisted)

theorem Source.namesColumns {s : Source} (ih : s.All Expr.NamesColumns) (hstrict : sc.strict = true)
    (hlisted : ∀ x ∈ s.subterms, x.sourceMembers sc.table ⊆ unknown) {m : Mode}
    (hown : m.memberRoot = false ∨ s.groupJoin.isSome → s.ownMembers sc.table ⊆ unknown) (beside : Bool) :
    sc.table.AdmitsAll unknown (s.emit sc m beside).term.columns := by
  have hcolumns (hwritten : m.memberRoot = false ∨ s.groupJoin.isSome) (f : String × String → Term Slot)
      (hf : ∀ c, (f c).columns = [(sc.tableName s.table, c.2)]) :
      sc.table.AdmitsAll unknown (Term.list ((sc.sourceColumns s.table s.members).map f)).columns := by
    refine Table.admitsAll_list fun t ht name hname => ?_
    obtain ⟨c, hc, rfl⟩ := List.mem_map.1 ht
    rw [hf, List.mem_singleton, Prod.mk.injEq] at hname
    obtain ⟨htable, rfl⟩ := hname
    exact (Source.admits_sourceColumns htable.symm c hc).imp_right (.imp_left (hown hwritten ·))
  cases hgroup : s.groupJoin with
  | none =>
    obtain ⟨typeName, members, own, groupJoin⟩ := s
    obtain rfl : groupJoin = none := hgroup
    simp only [Source.emit]
    split
    · exact Table.admitsAll_nil
    · rename_i hroot
      show sc.table.AdmitsAll unknown (sourceTerm _ _).columns
      unfold sourceTerm
      split
      · exact Table.admitsAll_nil
      · exact hcolumns (.inl (by simpa using hroot)) _ fun _ => rfl
  | some g =>
    obtain ⟨ihO, ihI⟩ := ih g hgroup
    obtain ⟨hO, hI⟩ := Source.all_of_subterms hlisted g hgroup
    rw [Source.term_emit_group hgroup, groupJoinTerm]
    refine Table.admitsAll_list fun t ht => ?_
    simp only [List.mem_cons, List.not_mem_nil, or_false] at ht
    rcases ht with rfl | rfl
    · exact hcolumns (.inr (by simp [hgroup])) _ fun _ => rfl
    · -- the inner key is written for the copy, which has the same columns
      have hinner : sc.table.AdmitsAll unknown (g.inner.emit (s.copyScope sc) {} beside).term.columns :=
        caseTerm_admitsAll (ihI (s.copyScope sc) {} beside unknown hstrict hI)
      exact Table.admitsAll_append.2 ⟨hinner, ihO.term {} _ hstrict hO⟩

theorem emitEach_admitsAll {es : List Expr} (ih : ∀ e ∈ es, e.NamesColumns) (hstrict : sc.strict = true)
    (hlisted : ∀ x ∈ listSubterms es, x.sourceMembers sc.table ⊆ unknown) (m : Mode) (beside : Bool) :
    ∀ t ∈ emitEach es sc m beside, sc.table.AdmitsAll unknown t.columns := by
  rw [emitEach_eq_map]
  intro t ht
  obtain ⟨e, he, rfl⟩ := List.mem_map.1 ht
  refine (ih e he).term m beside hstrict fun x hx => hlisted x ?_
  rw [listSubterms_eq_flatMap]
  exact List.mem_flatMap.2 ⟨e, he, hx⟩

theorem Query.namesColumns {q : Query} (ih : q.All Expr.NamesColumns) (hstrict : sc.strict = true)
    (hlisted : ∀ x ∈ q.subterms, x.sourceMembers sc.table ⊆ unknown)
    (hown : (Expr.subquery q).sourceMembers sc.table ⊆ unknown) : sc.table.AdmitsAll unknown (q.emit sc).columns := by
  have hparts := Query.all_of_subterms hlisted
  have hterm {e : Expr} (he : e.NamesColumns) (hsub : ∀ x ∈ e.subterms, x.sourceMembers sc.table ⊆ unknown) :
      sc.table.AdmitsAll unknown (e.emit (q.scope sc) {} false).term.columns :=
    caseTerm_admitsAll (he (q.scope sc) {} false unknown hstrict hsub)
  have hitems : sc.table.AdmitsAll unknown (q.emitItems (q.scope sc)).columns := by
    unfold Query.emitItems
    split
    · exact Table.admitsAll_nil
    · rename_i hcount
      split
      · rename_i e he
        exact hterm (ih.selector e he) (hparts.selector e he)
      · rename_i hselector
        have hsource : ∀ x ∈ q.source.subterms, x.sourceMembers sc.table ⊆ unknown := by
          intro x hx
          refine hlisted x ?_
          rw [Query.subterms_eq]
          simp [hx]
        have hmembers : q.source.ownMembers sc.table ⊆ unknown := by
          simpa [Expr.sourceMembers, hcount, hselector] using hown
        have hstrict : (q.scope sc).strict = true := hstrict
        exact Source.namesColumns ih.source hstrict hsource (fun _ => hmembers) false
  have hfilters : sc.table.AdmitsAll unknown ((q.filters.map fun f =>
      Term.slot (Slot.filter (f.command sc.table (some (q.tableName sc.table))))).flatMap Term.columns) := by
    rw [List.flatMap_map]
    exact Table.admitsAll_flatMap fun f _ => Table.admitsAll_nil
  rw [Select.columns_eq, Query.emit_eq]
  simp only [List.flatMap_append, Table.admitsAll_append]
  refine ⟨⟨⟨⟨hitems, ?_⟩, ?_, hfilters⟩, ?_⟩, ?_⟩
  · rw [List.flatMap_map]
    exact Table.admitsAll_flatMap fun j hj => Table.admitsAll_append.2
      ⟨hterm (ih.joins j hj).1 (hparts.joins j hj).1, hterm (ih.joins j hj).2 (hparts.joins j hj).2⟩
  · rw [List.flatMap_map]
    exact Table.admitsAll_flatMap fun e he => hterm (ih.conditions e he) (hparts.conditions e he)
  · rw [List.flatMap_map]
    exact Table.admitsAll_flatMap fun e he => hterm (ih.groupBy e he) (hparts.groupBy e he)
  · rw [List.flatMap_map]
    exact Table.admitsAll_flatMap fun k hk => hterm (ih.orderBy k hk) (hparts.orderBy k hk)

/-- The root of a member is a table only if it is the table of the member's source. -/
theorem isForeign_of_emitRoot {root : Option Source} {m : Mode} {beside : Bool}
    (h : (emitRoot root sc m beside).tableName? = some sc.table.name) : sc.isForeign (root.bind (·.table)) = false := by
  cases root with
  | none => rfl
  | some s =>
    obtain ⟨typeName, members, own, _ | g⟩ := s
    · simp only [emitRoot, Source.emit] at h
      split at h
      · exact Scope.isForeign_of_tableName (Option.some.inj h)
      · unfold sourceTerm at h
        split at h <;> cases h
    · rw [emitRoot_some, Source.term_emit_group rfl] at h
      cases h

/-- **Members are columns**, at any depth and in whatever place. -/
theorem Expr.namesColumns (e : Expr) : e.NamesColumns := by
  induction e using Expr.induction with
  | source s ih =>
    intro sc m beside unknown hstrict hlisted
    have hsource := Source.namesColumns (m := m) ih hstrict (fun x hx => hlisted x (by simp [Expr.subterms, hx]))
      (fun _ => hlisted _ (Expr.mem_subterms_self _)) beside
    rw [Expr.emit, Source.tree_emit]
    exact hsource
  | subquery q ih =>
    intro sc m beside unknown hstrict hlisted
    exact Query.namesColumns ih hstrict (fun x hx => hlisted x (by simp [Expr.subterms, hx]))
      (hlisted _ (Expr.mem_subterms_self _))
  | binary op left right ihl ihr =>
    intro sc m beside unknown hstrict hlisted
    have hl (m : Mode) (beside : Bool) := ihl.term m beside hstrict fun x hx => hlisted x (by simp [Expr.subterms, hx])
    have hr (m : Mode) (beside : Bool) := ihr.term m beside hstrict fun x hx => hlisted x (by simp [Expr.subterms, hx])
    simp only [Expr.emit]
    split
    · simpa only [Emitted.ofTerm, Decision.All, Term.columns, columns_parenIf] using hl _ _
    · split
      · simpa only [Emitted.ofTerm, Decision.All, Term.columns, columns_parenIf] using hr _ _
      · simpa only [Emitted.ofTerm, Decision.All, Term.columns, columns_parenIf, Table.admitsAll_append] using
          ⟨hl _ _, hr _ _⟩
  | conditional test ifTrue ifFalse ihc iht ihf =>
    intro sc m beside unknown hstrict hlisted
    exact ⟨ihc.term _ _ hstrict fun x hx => hlisted x (by simp [Expr.subterms, hx]),
      iht sc _ _ _ hstrict fun x hx => hlisted x (by simp [Expr.subterms, hx]),
      ihf sc _ _ _ hstrict fun x hx => hlisted x (by simp [Expr.subterms, hx])⟩
  | constant value => exact fun sc m beside unknown _ _ => Table.admitsAll_nil
  | member root path type ih =>
    intro sc m beside unknown hstrict hlisted
    have hroot : sc.table.AdmitsAll unknown (emitRoot root sc m.forMemberRoot beside).columns := by
      cases root with
      | none => exact Table.admitsAll_nil
      | some s =>
        refine Source.namesColumns (ih s rfl) hstrict
          (fun x hx => hlisted x (by simp [Expr.subterms, rootSubterms, hx])) (fun hwritten => ?_) beside
        have hgroup : s.groupJoin.isSome := hwritten.resolve_left (by simp [Mode.forMemberRoot])
        simpa [Expr.sourceMembers, Option.filter, hgroup] using hlisted _ (Expr.mem_subterms_self _)
    simp only [Expr.emit]
    split
    · exact Table.admitsAll_nil
    · show sc.table.AdmitsAll unknown (labelIf _ _ (lengths _ _)).columns
      rw [columns_labelIf, columns_lengths]
      exact columnTerm_admitsAll hstrict isForeign_of_emitRoot hroot _
  | call method receiver arguments ihr iha =>
    intro sc m beside unknown hstrict hlisted
    have hargs := emitEach_admitsAll iha hstrict fun x hx => hlisted x (by simp [Expr.subterms, hx])
    have hcall {ts : List (Term Slot)} (template : Template) (hts : ∀ t ∈ ts, sc.table.AdmitsAll unknown t.columns) :
        sc.table.AdmitsAll unknown (Term.call template ts).columns := Table.admitsAll_list hts
    simp only [Expr.emit]
    split
    · refine hcall _ fun t ht => ?_
      rw [List.mem_singleton.1 ht]
      exact Table.admitsAll_list (hargs _ _)
    · cases receiver with
      | none => exact hcall _ (hargs _ _)
      | some r =>
        refine hcall _ fun t ht => ?_
        rcases List.mem_cons.1 ht with rfl | ht
        · exact (ihr r rfl).term _ _ hstrict fun x hx => hlisted x (by simp [Expr.subterms, optionSubterms, hx])
        · exact hargs _ _ t ht
  | project items ih =>
    intro sc m beside unknown hstrict hlisted
    simp only [Expr.emit]
    split
    · exact Table.admitsAll_nil
    · refine Table.admitsAll_list (emitEach_admitsAll ih hstrict (fun x hx => hlisted x ?_) _ _)
      simp [Expr.subterms, hx]
  | unary op operand ih =>
    intro sc m beside unknown hstrict hlisted
    have hoperand (m : Mode) := ih.term m beside hstrict fun x hx => hlisted x (by simp [Expr.subterms, hx])
    cases op with
    | not | convert | typeAs => exact hoperand _

end Emission

/-! ## Filters -/

/-- The names that the paths of a filter begin with. -/
def Filter.pathNames (f : Filter) : List String := f.leaves.map fun leaf => (pathSegments leaf.1).headD ""

/-- The names in a filter of the described table are columns of that table, up to the
paths that no column is found for. -/
theorem Filter.admits_identifiers (table : Table) (f : Filter) :
    ∀ name ∈ (f.fragment table none).identifiers, table.Admits f.pathNames name := by
  intro name hname
  rw [Filter.identifiers_fragment] at hname
  obtain ⟨leaf, hleaf, rfl⟩ := List.mem_map.1 hname
  exact Table.admits_getD (List.mem_map.2 ⟨leaf, hleaf, rfl⟩)

/-- A filter that is taken over keeps its names. -/
theorem Slot.settle_filter_names {f : Filter} {table : Table} {qualifier : Option String} {text : String}
    {r r' : Registry} (hnames : r.style = .positional → f.Named table qualifier)
    (hcontained : f.Contained r.style table qualifier)
    (h : (Slot.filter (f.command table qualifier)).settle.runOn r = (.ok text, r')) :
    ∃ mark : String → String, text = Fragment.render ((f.fragment table qualifier).map (Token.map mark)) := by
  rw [Slot.settle_filter] at h
  cases h
  let es := (f.command table qualifier).parameters.toList
  show ∃ mark : String → String, r.renamed es (Fragment.render (f.fragment table qualifier)) = _
  cases hstyle : r.style with
  | named =>
    refine ⟨id, ?_⟩
    rw [Registry.renamed_named hstyle]
    refine congrArg Fragment.render (List.map_id'' (fun t => ?_) _).symm
    cases t <;> rfl
  | positional =>
    have hes : ∀ e ∈ es, IsIdentifier e.1 := fun e he =>
      hnames hstyle e.1 (Filter.mem_names_command.1 (List.mem_map.2 ⟨e, he, rfl⟩))
    refine ⟨r.renamed es, ?_⟩
    rw [Registry.renamed_render hes r (f.fragment_legible table qualifier)]
    refine congrArg Fragment.render (List.map_congr_left fun t ht => ?_)
    cases t with
    | text s => rfl
    | slot s => rfl
    | name s => exact congrArg Token.name (Registry.renamed_of_notMem (hcontained hstyle s (.inl ht)) r es)
    | key s => exact congrArg Token.key (Registry.renamed_of_notMem (hcontained hstyle s (.inr ht)) r es)

/-! ## Queries -/

/-- The members that sources in a query list as columns of the described table. -/
def Query.sourceMembers (table : Table) (q : Query) : List String :=
  (Expr.subquery q).subterms.flatMap (Expr.sourceMembers table)

/-- **Strictly, members are columns.** In a query that compiles, every member of the
described table has a column, and every column that is written behind the table is one
of its columns, but for the members that a source lists: without a column they are taken
as they are. So are the paths of filters, which are written behind the table as they are
on their own. -/
theorem strict_columns {q : Query} {table : Table} {settings : Settings} {cmd : Command}
    (hstrict : settings.strict = true)
    (hnames : settings.style = .positional → (∀ n ∈ q.filterNames, IsIdentifier n) ∧ q.SignFree table)
    (h : q.compile table settings = .ok cmd) :
    ∃ u : Select (Slot × String), u.map Prod.fst = q.emit (.ofSettings table settings none) ∧
      cmd.text = (u.map Prod.snd).frame.render ∧
      (∀ root base steps type, Expr.member root (base :: steps) type ∈ q.reached →
        (∀ own ∈ root.bind (·.table), own = table.name) →
        ∃ c ∈ table.columns.toList, table.columnByMember? base = some c) ∧
      (∀ name, (table.name, name) ∈ (u.map Prod.snd).columns → table.Admits (q.sourceMembers table) name) ∧
      (∀ c text, (Slot.filter c, text) ∈ u.slots →
        ∃ p f, q.HasFilter p f ∧ c = f.command table (some (p.tableName table))) ∧
      ∀ p f text, q.HasFilter p f → (Slot.filter (f.command table (some (p.tableName table))), text) ∈ u.slots →
        (∃ mark, text = Fragment.render ((f.fragment table (some (p.tableName table))).map (Token.map mark))) ∧
        (p.tableName table = table.name →
          f.fragment table (some (p.tableName table)) = (f.fragment table none).qualifiedBy table.name ∧
          ∀ name ∈ (f.fragment table none).identifiers, table.Admits f.pathNames name) := by
  obtain ⟨u, r, hu, hv, rfl⟩ := Query.compile_eq_ok h
  have hbuilt := Query.built_of_filters (P := q.Filters table) (fun hp _ hf => ⟨rfl, _, hp, hf, rfl⟩) hu
  refine ⟨u, hu, rfl, fun root base steps type hmem hown => ?_, fun name hname => ?_, fun c text hmem => ?_,
    fun p f text hfilter hmem => ⟨?_, fun hown => ?_⟩⟩
  · have haccepted := (Expr.refusal?_eq_none_iff.1 (Query.compile_ok_iff.1 ⟨_, h⟩ _ hmem)).2.2 hstrict _ _ _ _ rfl hown
    obtain ⟨c, hc⟩ := Option.isSome_iff_exists.1 haccepted
    exact ⟨c, Table.mem_of_columnByMember? hc, hc⟩
  · have hcolumns := (Expr.subquery q).namesColumns (.ofSettings table settings none) {} false (q.sourceMembers table)
      hstrict fun x hx n hn => List.mem_flatMap.2 ⟨x, hx, hn⟩
    refine hcolumns name ?_
    rwa [Select.columns_map, ← Select.columns_map Prod.fst, hu] at hname
  · obtain ⟨f, t, _, rfl, ht, p, hp, hf, rfl⟩ := hbuilt.of_mem_slots hmem
    exact ⟨p, f, ⟨hp, hf⟩, by rw [ht]⟩
  · obtain ⟨r₁, r₂, halike, hrun⟩ := hv.alike.2 _ hmem
    have hstyle : r₁.style = settings.style := halike.1
    have hfilter : q.Filters table f table (some (p.tableName table)) := ⟨rfl, p, hfilter.1, hfilter.2, rfl⟩
    exact Slot.settle_filter_names
      (fun hpositional => Query.named (hnames (hstyle ▸ hpositional)).1 _ _ _ hfilter)
      (hstyle ▸ Query.contained (fun hpositional => (hnames hpositional).2) _ _ _ hfilter) hrun
  · rw [hown]
    exact ⟨f.fragment_own table, f.admits_identifiers table⟩

/-- A condition on the age of people, in a query on another table. -/
def ageElsewhere : Query :=
  { countWhere [.binary .greaterThan (.member (some ⟨"", [], some "people", none⟩) ["age"] .unknown)
      (.constant (.int 18))] [] with source := ⟨"", [], some "orders", none⟩ }

/-- A condition on the names of people. -/
def namedAnn : Filter := .compare "Name" .equal ⟨"x", .string "Ann"⟩

/-- The names of people, with both conditions. -/
def strictPeople : Query :=
  { countWhere [.subquery ageElsewhere] [namedAnn] with source := ⟨"", ["Name"], none, none⟩, count := false }

theorem strictPeople_filterNames : strictPeople.filterNames = ["x"] := by decide

theorem strictPeople_signFree : strictPeople.SignFree peopleTable where
  tableName := by decide
  columns := by decide
  sources := by
    simp [strictPeople, ageElsewhere, countWhere, Query.subterms, Source.subterms, optionSubterms, joinSubterms,
      listSubterms, sortSubterms, Expr.subterms, rootSubterms]
  paths := by
    simp [strictPeople, ageElsewhere, namedAnn, countWhere, Query.subterms, Source.subterms, optionSubterms,
      joinSubterms, listSubterms, sortSubterms, Expr.subterms, rootSubterms, Filter.paths]

theorem strictPeople_columns :
    strictPeople.SignFree peopleTable ∧ ∃ cmd,
      strictPeople.compile peopleTable { style := .positional, strict := true } = .ok cmd ∧
      cmd.text = "SELECT \"people\".\"full_name\" FROM \"people\" WHERE ((SELECT COUNT(*) FROM \"orders\"" ++
        " WHERE \"people\".\"age\" > $1)) AND (\"people\".\"full_name\" = $2)" ∧
      (∀ name ∈ ["full_name", "age"], peopleTable.Admits ["Name"] name) ∧
      ∀ name ∈ (namedAnn.fragment peopleTable none).identifiers, peopleTable.Admits ["Name"] name := by
  obtain ⟨cmd, hc⟩ : ∃ cmd, strictPeople.compile peopleTable { style := .positional, strict := true } = .ok cmd :=
    ⟨_, rfl⟩
  obtain ⟨u, hu, -, -, hcolumns, -, hfilters⟩ := strict_columns rfl
    (fun _ => ⟨by rw [strictPeople_filterNames]; decide, strictPeople_signFree⟩) hc
  have hslots : u.slots.map Prod.fst =
      [.value (.int 18) false, .filter (namedAnn.command peopleTable (some "people"))] := by
    rw [← Select.slots_map, hu]
    rfl
  obtain ⟨⟨slot, text⟩, hmem, hslot⟩ := List.mem_map.1 (hslots ▸ List.mem_cons_of_mem _ (List.mem_singleton_self _))
  cases hslot
  refine ⟨strictPeople_signFree, cmd, hc, ?_, fun name hname => hcolumns name ?_, ?_⟩
  · cases hc
    decide +kernel
  · rw [Select.columns_map, ← Select.columns_map Prod.fst, hu]
    show (_, name) ∈ [("people", "full_name"), ("people", "age")]
    simpa [peopleTable] using hname
  · exact ((hfilters strictPeople namedAnn text ⟨List.mem_cons_self .., List.mem_singleton_self _⟩ hmem).2 rfl).2

/-- A table with one column, which has the sign of a parameter in its name. -/
def signedTable : Table := { name := "t", columns := ⟨[{ dbName := "a@x" }]⟩ }

/-- Columns that the table does not have, all with members resolved strictly: one that a
source lists, the path of a filter, and in positional style the known column of a filter
in whose name its parameter is found. -/
theorem strict_fallbacks :
    ({ countWhere [] [] with source := ⟨"", ["b"], none, none⟩, count := false } : Query).compile signedTable
        { strict := true } = .ok ⟨"SELECT \"t\".\"b\" FROM \"t\"", ⟨[]⟩⟩ ∧
    (countWhere [] [.compare "b" .equal ⟨"x", .int 1⟩]).compile signedTable { strict := true } =
      .ok ⟨"SELECT COUNT(*) FROM \"t\" WHERE \"t\".\"b\" = @x", ⟨[("x", ⟨.int 1, none⟩)]⟩⟩ ∧
    (countWhere [] [.compare "a@x" .equal ⟨"x", .int 1⟩]).compile signedTable { style := .positional, strict := true } =
      .ok ⟨"SELECT COUNT(*) FROM \"t\" WHERE \"t\".\"a$1\" = $1", ⟨[("1", ⟨.int 1, none⟩)]⟩⟩ :=
  ⟨rfl, rfl, rfl⟩

end ParamQuery
