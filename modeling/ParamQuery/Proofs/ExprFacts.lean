/-
Induction over expressions and the queries inside them, and the lists of the
emission written with `map`. `Expr.subterms` and `Query.subterms` are every
expression that stands in a query, at any depth; conditions on the whole of a
query are conditions on these.
-/
import ParamQuery.Compile.Call
import ParamQuery.Compile.Emit
import ParamQuery.Proofs.TermFacts
import Mathlib.Data.List.Basic

namespace ParamQuery

/-! ## Induction -/

/-- A property of the keys of a source's group join, if it has one. -/
def Source.All (P : Expr → Prop) (s : Source) : Prop :=
  ∀ g ∈ s.groupJoin, P g.outer ∧ P g.inner

/-- A property of every expression that a query is made of. -/
structure Query.All (P : Expr → Prop) (q : Query) : Prop where
  source : q.source.All P
  selector : ∀ e ∈ q.selector, P e
  joins : ∀ j ∈ q.joins, P j.outer ∧ P j.inner
  conditions : ∀ e ∈ q.conditions, P e
  groupBy : ∀ e ∈ q.groupBy, P e
  orderBy : ∀ k ∈ q.orderBy, P k.key

section Induction

set_option linter.unusedSectionVars false

variable {P : Expr → Prop}
  (source : ∀ s : Source, s.All P → P (.source s))
  (subquery : ∀ q : Query, q.All P → P (.subquery q))
  (binary : ∀ op left right, P left → P right → P (.binary op left right))
  (conditional : ∀ test ifTrue ifFalse, P test → P ifTrue → P ifFalse →
    P (.conditional test ifTrue ifFalse))
  (constant : ∀ value, P (.constant value))
  (member : ∀ root path type, (∀ s ∈ root, s.All P) → P (.member root path type))
  (call : ∀ method receiver arguments, (∀ e ∈ receiver, P e) → (∀ e ∈ arguments, P e) →
    P (.call method receiver arguments))
  (project : ∀ items, (∀ e ∈ items, P e) → P (.project items))
  (unary : ∀ op operand, P operand → P (.unary op operand))

include source subquery binary conditional constant member call project unary

mutual
/-- Induction over expressions, with the expressions of a list, of a source or
of a query taken together. -/
theorem Expr.induction : ∀ e, P e
  | .source s => source _ (sourceInduction s)
  | .subquery q => subquery _ (queryInduction q)
  | .binary _ left right => binary _ _ _ (Expr.induction left) (Expr.induction right)
  | .conditional test ifTrue ifFalse =>
    conditional _ _ _ (Expr.induction test) (Expr.induction ifTrue) (Expr.induction ifFalse)
  | .constant value => constant value
  | .member root _ _ => member _ _ _ (rootInduction root)
  | .call _ receiver arguments => call _ _ _ (optionInduction receiver) (listInduction arguments)
  | .project items => project _ (listInduction items)
  | .unary _ operand => unary _ _ (Expr.induction operand)
theorem sourceInduction : ∀ s : Source, s.All P
  | ⟨_, _, _, none⟩ => by simp [Source.All]
  | ⟨_, _, _, some ⟨outer, inner⟩⟩ => by
    have ho := Expr.induction outer
    have hi := Expr.induction inner
    simpa [Source.All] using ⟨ho, hi⟩
theorem rootInduction : ∀ root : Option Source, ∀ s ∈ root, s.All P
  | none => by simp
  | some s => by
    have hs := sourceInduction s
    simpa using hs
theorem optionInduction : ∀ o : Option Expr, ∀ e ∈ o, P e
  | none => by simp
  | some e => by
    have he := Expr.induction e
    simpa using he
theorem listInduction : ∀ es : List Expr, ∀ e ∈ es, P e
  | [] => by simp
  | e :: es => by
    have he := Expr.induction e
    have hes := listInduction es
    simpa using ⟨he, hes⟩
theorem queryJoinsInduction : ∀ js : List Join, ∀ j ∈ js, P j.outer ∧ P j.inner
  | [] => by simp
  | ⟨_, _, outer, inner⟩ :: js => by
    have ho := Expr.induction outer
    have hi := Expr.induction inner
    have hjs := queryJoinsInduction js
    simp only [List.mem_cons, forall_eq_or_imp]
    exact ⟨⟨ho, hi⟩, hjs⟩
theorem sortKeysInduction : ∀ ks : List SortKey, ∀ k ∈ ks, P k.key
  | [] => by simp
  | ⟨key, _⟩ :: ks => by
    have hk := Expr.induction key
    have hks := sortKeysInduction ks
    simp only [List.mem_cons, forall_eq_or_imp]
    exact ⟨hk, hks⟩
theorem queryInduction : ∀ q : Query, q.All P
  | ⟨s, selector, joins, conditions, _, groupBy, orderBy, _, _, _, _⟩ =>
    ⟨sourceInduction s, optionInduction selector, queryJoinsInduction joins, listInduction conditions,
      listInduction groupBy, sortKeysInduction orderBy⟩
end

end Induction

/-- A property of all expressions holds of those of a source. -/
theorem Source.All.intro {P : Expr → Prop} (h : ∀ e, P e) (s : Source) : s.All P :=
  fun _ _ => ⟨h _, h _⟩

/-- A property of all expressions holds of those of a query. -/
theorem Query.All.intro {P : Expr → Prop} (h : ∀ e, P e) (q : Query) : q.All P :=
  ⟨Source.All.intro h _, fun _ _ => h _, fun _ _ => ⟨h _, h _⟩, fun _ _ => h _, fun _ _ => h _,
    fun _ _ => h _⟩

/-! ## The expressions inside an expression -/

mutual
/-- Every expression that stands in an expression, itself first. -/
def Expr.subterms : Expr → List Expr
  | .source s => .source s :: s.subterms
  | .subquery q => .subquery q :: q.subterms
  | .binary op left right => .binary op left right :: (left.subterms ++ right.subterms)
  | .conditional test ifTrue ifFalse =>
    .conditional test ifTrue ifFalse :: (test.subterms ++ ifTrue.subterms ++ ifFalse.subterms)
  | .constant value => [.constant value]
  | .member root path type => .member root path type :: rootSubterms root
  | .call method receiver arguments =>
    .call method receiver arguments :: (optionSubterms receiver ++ listSubterms arguments)
  | .project items => .project items :: listSubterms items
  | .unary op operand => .unary op operand :: operand.subterms
/-- The expressions inside the keys of a source. -/
def Source.subterms : Source → List Expr
  | ⟨_, _, _, none⟩ => []
  | ⟨_, _, _, some ⟨outer, inner⟩⟩ => outer.subterms ++ inner.subterms
/-- The expressions inside the root of a member. -/
def rootSubterms : Option Source → List Expr
  | none => []
  | some s => s.subterms
/-- The expressions inside one that may be missing. -/
def optionSubterms : Option Expr → List Expr
  | none => []
  | some e => e.subterms
/-- The expressions inside each of some. -/
def listSubterms : List Expr → List Expr
  | [] => []
  | e :: rest => e.subterms ++ listSubterms rest
/-- The expressions inside the keys of the joins. -/
def joinSubterms : List Join → List Expr
  | [] => []
  | ⟨_, _, outer, inner⟩ :: rest => outer.subterms ++ inner.subterms ++ joinSubterms rest
/-- The expressions inside the sort keys. -/
def sortSubterms : List SortKey → List Expr
  | [] => []
  | ⟨key, _⟩ :: rest => key.subterms ++ sortSubterms rest
/-- Every expression that stands in a query, at any depth. -/
def Query.subterms : Query → List Expr
  | ⟨source, selector, joins, conditions, _, groupBy, orderBy, _, _, _, _⟩ =>
    source.subterms ++ optionSubterms selector ++ joinSubterms joins ++ listSubterms conditions ++
      listSubterms groupBy ++ sortSubterms orderBy
end

theorem listSubterms_eq_flatMap (es : List Expr) : listSubterms es = es.flatMap Expr.subterms := by
  induction es with
  | nil => rfl
  | cons e es ih => simp [listSubterms, ih]

theorem optionSubterms_eq_flatMap (o : Option Expr) : optionSubterms o = o.toList.flatMap Expr.subterms := by
  cases o <;> simp [optionSubterms]

theorem joinSubterms_eq_flatMap (js : List Join) :
    joinSubterms js = js.flatMap fun j => j.outer.subterms ++ j.inner.subterms := by
  induction js with
  | nil => rfl
  | cons j js ih =>
    obtain ⟨kind, table, outer, inner⟩ := j
    simp [joinSubterms, ih]

theorem sortSubterms_eq_flatMap (ks : List SortKey) :
    sortSubterms ks = ks.flatMap fun k => k.key.subterms := by
  induction ks with
  | nil => rfl
  | cons k ks ih =>
    obtain ⟨key, direction⟩ := k
    simp [sortSubterms, ih]

theorem Source.subterms_eq (s : Source) :
    s.subterms = s.groupJoin.toList.flatMap fun g => g.outer.subterms ++ g.inner.subterms := by
  obtain ⟨typeName, members, table, _ | ⟨outer, inner⟩⟩ := s <;> simp [Source.subterms]

theorem Query.subterms_eq (q : Query) :
    q.subterms = q.source.subterms ++ q.selector.toList.flatMap Expr.subterms ++
      (q.joins.flatMap fun j => j.outer.subterms ++ j.inner.subterms) ++
      q.conditions.flatMap Expr.subterms ++ q.groupBy.flatMap Expr.subterms ++
      q.orderBy.flatMap fun k => k.key.subterms := by
  obtain ⟨source, selector, joins, conditions, filters, groupBy, orderBy, limit, offset, distinct, count⟩ := q
  simp only [Query.subterms, listSubterms_eq_flatMap, optionSubterms_eq_flatMap, joinSubterms_eq_flatMap,
    sortSubterms_eq_flatMap]

theorem Expr.mem_subterms_self (e : Expr) : e ∈ e.subterms := by
  cases e <;> simp [Expr.subterms]

/-- A property of every expression inside a query holds of those that it is
made of, each with what is inside it. -/
theorem Query.all_of_subterms {q : Query} {F : Expr → Prop} (h : ∀ x ∈ q.subterms, F x) :
    q.All fun e => ∀ x ∈ e.subterms, F x := by
  rw [Query.subterms_eq] at h
  simp only [List.mem_append, List.mem_flatMap, Option.mem_toList, or_imp, forall_and] at h
  obtain ⟨⟨⟨⟨⟨hs, hsel⟩, hj⟩, hc⟩, hg⟩, ho⟩ := h
  refine ⟨fun g hg' => ?_, fun e he x hx => hsel x ⟨e, he, hx⟩, fun j hj' => ?_,
    fun e he x hx => hc x ⟨e, he, hx⟩, fun e he x hx => hg x ⟨e, he, hx⟩, fun k hk x hx => ho x ⟨k, hk, hx⟩⟩
  · rw [Source.subterms_eq] at hs
    constructor
    · exact fun x hx => hs x (by simp only [List.mem_flatMap, Option.mem_toList]; exact ⟨g, hg', by simp [hx]⟩)
    · exact fun x hx => hs x (by simp only [List.mem_flatMap, Option.mem_toList]; exact ⟨g, hg', by simp [hx]⟩)
  · exact ⟨fun x hx => hj x ⟨j, hj', .inl hx⟩, fun x hx => hj x ⟨j, hj', .inr hx⟩⟩

/-- The same of the keys of a group join. -/
theorem Source.all_of_subterms {s : Source} {F : Expr → Prop} (h : ∀ x ∈ s.subterms, F x) :
    s.All fun e => ∀ x ∈ e.subterms, F x := by
  intro g hg
  rw [Source.subterms_eq] at h
  simp only [List.mem_flatMap, Option.mem_toList, List.mem_append] at h
  exact ⟨fun x hx => h x ⟨g, hg, .inl hx⟩, fun x hx => h x ⟨g, hg, .inr hx⟩⟩

/-! ## Emission of lists -/

theorem emitEach_eq_map (es : List Expr) (sc : Scope) (m : Mode) (beside : Bool) :
    emitEach es sc m beside = es.map fun e => (e.emit sc m beside).term := by
  induction es with
  | nil => rfl
  | cons e es ih => simp [emitEach, ih]

theorem emitOption_eq_map (o : Option Expr) (sc : Scope) (m : Mode) :
    emitOption o sc m = o.map fun e => e.emit sc m false := by
  cases o <;> rfl

/-- A join of the statement. -/
def Join.emit (j : Join) (sc : Scope) : Sql.JoinOn Slot :=
  ⟨j.kind.keyword, j.table, (j.outer.emit sc {} false).term, (j.inner.emit sc {} false).term⟩

theorem emitJoins_eq_map (js : List Join) (sc : Scope) : emitJoins js sc = js.map (Join.emit · sc) := by
  induction js with
  | nil => rfl
  | cons j js ih =>
    obtain ⟨kind, table, outer, inner⟩ := j
    simp [emitJoins, Join.emit, ih]

/-- A sort key of the statement. -/
def SortKey.emit (k : SortKey) (sc : Scope) : Sql.SortTerm Slot :=
  ⟨(k.key.emit sc {} false).term, k.direction.keyword⟩

theorem emitSortKeys_eq_map (ks : List SortKey) (sc : Scope) :
    emitSortKeys ks sc = ks.map (SortKey.emit · sc) := by
  induction ks with
  | nil => rfl
  | cons k ks ih =>
    obtain ⟨key, direction⟩ := k
    simp [emitSortKeys, SortKey.emit, ih]

theorem emitRoot_some (s : Source) (sc : Scope) (m : Mode) (beside : Bool) :
    emitRoot (some s) sc m beside = (s.emit sc m beside).term := rfl

/-- The select list of a query: the number of rows, what is selected, or the
columns of the source. -/
def Query.emitItems (q : Query) (sc : Scope) : Sql.Term Slot :=
  if q.count then .countAll else
    match q.selector with
    | some e => (e.emit sc {} false).term
    | none => (q.source.emit sc {} false).term

/-- The scope of the clauses of a query. -/
def Query.scope (q : Query) (sc : Scope) : Scope := { sc with qualifier := q.source.table }

/-- The table that a query reads from. -/
def Query.tableName (q : Query) (table : Table) : String := q.source.table.getD table.name

theorem Query.emit_eq (q : Query) (sc : Scope) :
    q.emit sc =
      { distinct := q.distinct
        items := q.emitItems (q.scope sc)
        schema := if q.tableName sc.table = sc.table.name then sc.table.schema else none
        table := q.tableName sc.table
        joins := q.joins.map (Join.emit · (q.scope sc))
        conditions := (q.conditions.map fun e => (e.emit (q.scope sc) {} false).term) ++
          q.filters.map fun f => .slot (.filter (f.command sc.table (some (q.tableName sc.table))))
        groupBy := q.groupBy.map fun e => (e.emit (q.scope sc) {} false).term
        orderBy := q.orderBy.map (SortKey.emit · (q.scope sc))
        limit := q.limit
        offset := q.offset } := by
  obtain ⟨source, selector, joins, conditions, filters, groupBy, orderBy, limit, offset, distinct, count⟩ := q
  simp only [Query.emit, emitJoins_eq_map, emitEach_eq_map, emitSortKeys_eq_map, emitOption_eq_map,
    Query.scope, Query.tableName, Query.emitItems]
  cases selector <;> rfl

/-! ## Decision trees -/

/-- The tree with its tests and leaves replaced. -/
def Sql.Decision.map {α β : Type} (g : α → β) : Sql.Decision α → Sql.Decision β
  | .leaf value => .leaf (g value)
  | .test condition ifTrue ifFalse => .test (g condition) (ifTrue.map g) (ifFalse.map g)

theorem Sql.Decision.flattenUnder_map {α β : Type} (g : α → β) (d : Sql.Decision α) (guards : List α) :
    (d.map g).flattenUnder (guards.map g) =
      ((d.flattenUnder guards).1.map fun arm => (arm.1.map g, g arm.2), g (d.flattenUnder guards).2) := by
  induction d generalizing guards with
  | leaf value => rfl
  | test condition ifTrue ifFalse ihT ihF =>
    have hT := ihT (guards ++ [condition])
    have hF := ihF guards
    simp only [List.map_append, List.map_cons, List.map_nil] at hT
    simp [Sql.Decision.map, Sql.Decision.flattenUnder, hT, hF]

/-- The image of a decision is written like the decision. -/
theorem caseTerm_map (f : Slot → Slot) (d : Sql.Decision (Sql.Term Slot)) :
    (caseTerm d).map f = caseTerm (d.map (Sql.Term.map f)) := by
  cases d with
  | leaf t => rfl
  | test condition ifTrue ifFalse =>
    have h := Sql.Decision.flattenUnder_map (Sql.Term.map f) (.test condition ifTrue ifFalse) []
    simp only [List.map_nil] at h
    simp only [caseTerm, Sql.Decision.flatten, Sql.Decision.map] at h ⊢
    simp [h, Sql.Arm.map, Function.comp_def]

end ParamQuery
