/-
Which queries are refused. `Query.reached` lists the expressions that a
compilation comes to: not those that are dropped on the way, which are the null
of a null test, the receiver of a concatenation and the select list of a count.
An expression that is reached can be refused for what it is itself
(`Expr.refusal?`): a projection of nothing, a member without a name and, when
members are resolved strictly, a member of the described table without a column.

`Expr.refusedBy_emit`: the refusals among the slots of an emission are those of the
expressions reached. `Query.emit_lenient`: without refusals, the emission does not
depend on how members are resolved. `compile_succeeds_iff` puts the two together.
-/
import ParamQuery.Proofs.EmittedSlots
import ParamQuery.Proofs.Styles

namespace ParamQuery

open Sql

/-! ## What is reached -/

mutual
/-- The expressions that the compilation of an expression comes to, itself first. -/
def Expr.reached : Expr → List Expr
  | .source s => .source s :: s.reached
  | .subquery q => .subquery q :: q.reached
  | .binary op left right =>
    .binary op left right ::
      if op.isEquality && right.isNull then left.reached
      else if op.isEquality && left.isNull then right.reached
      else left.reached ++ right.reached
  | .conditional test ifTrue ifFalse =>
    .conditional test ifTrue ifFalse :: (test.reached ++ ifTrue.reached ++ ifFalse.reached)
  | .constant value => [.constant value]
  | .member root path type => .member root path type :: if path = [] then [] else rootReached root
  | .call method receiver arguments =>
    .call method receiver arguments ::
      ((if method = .concat then [] else optionReached receiver) ++ listReached arguments)
  | .project items => .project items :: listReached items
  | .unary op operand => .unary op operand :: operand.reached
/-- The keys of a group join. -/
def Source.reached : Source → List Expr
  | ⟨_, _, _, none⟩ => []
  | ⟨_, _, _, some ⟨outer, inner⟩⟩ => inner.reached ++ outer.reached
/-- The expressions that are reached in the root of a member. -/
def rootReached : Option Source → List Expr
  | none => []
  | some s => s.reached
/-- The expressions that are reached in one that may be missing. -/
def optionReached : Option Expr → List Expr
  | none => []
  | some e => e.reached
/-- The expressions that are reached in each of some. -/
def listReached : List Expr → List Expr
  | [] => []
  | e :: rest => e.reached ++ listReached rest
/-- The expressions that are reached in the keys of the joins. -/
def joinReached : List Join → List Expr
  | [] => []
  | ⟨_, _, outer, inner⟩ :: rest => outer.reached ++ inner.reached ++ joinReached rest
/-- The expressions that are reached in the sort keys. -/
def sortReached : List SortKey → List Expr
  | [] => []
  | ⟨key, _⟩ :: rest => key.reached ++ sortReached rest
/-- The expressions that the compilation of a query comes to: what is selected,
or else the source, unless the rows are counted; and every other clause. -/
def Query.reached : Query → List Expr
  | ⟨source, selector, joins, conditions, _, groupBy, orderBy, _, _, _, count⟩ =>
    (if count then [] else if selector.isSome then optionReached selector else .source source :: source.reached) ++
      joinReached joins ++ listReached conditions ++ listReached groupBy ++ sortReached orderBy
end

theorem Source.reached_eq (s : Source) :
    s.reached = s.groupJoin.toList.flatMap fun g => g.inner.reached ++ g.outer.reached := by
  obtain ⟨typeName, members, table, _ | ⟨outer, inner⟩⟩ := s <;> simp [Source.reached]

theorem rootReached_eq_flatMap (root : Option Source) : rootReached root = root.toList.flatMap Source.reached := by
  cases root <;> simp [rootReached]

theorem optionReached_eq_flatMap (o : Option Expr) : optionReached o = o.toList.flatMap Expr.reached := by
  cases o <;> simp [optionReached]

theorem listReached_eq_flatMap (es : List Expr) : listReached es = es.flatMap Expr.reached := by
  induction es with
  | nil => rfl
  | cons e es ih => simp [listReached, ih]

theorem joinReached_eq_flatMap (js : List Join) :
    joinReached js = js.flatMap fun j => j.outer.reached ++ j.inner.reached := by
  induction js with
  | nil => rfl
  | cons j js ih =>
    obtain ⟨kind, table, outer, inner⟩ := j
    simp [joinReached, ih]

theorem sortReached_eq_flatMap (ks : List SortKey) : sortReached ks = ks.flatMap fun k => k.key.reached := by
  induction ks with
  | nil => rfl
  | cons k ks ih =>
    obtain ⟨key, direction⟩ := k
    simp [sortReached, ih]

/-- What the select list of a query is made of. -/
def Query.itemsReached (q : Query) : List Expr :=
  if q.count then []
  else match q.selector with
    | some e => e.reached
    | none => .source q.source :: q.source.reached

theorem Query.reached_eq (q : Query) :
    q.reached = q.itemsReached ++ (q.joins.flatMap fun j => j.outer.reached ++ j.inner.reached) ++
      q.conditions.flatMap Expr.reached ++ q.groupBy.flatMap Expr.reached ++
      q.orderBy.flatMap fun k => k.key.reached := by
  obtain ⟨source, selector, joins, conditions, filters, groupBy, orderBy, limit, offset, distinct, count⟩ := q
  simp only [Query.reached, Query.itemsReached, listReached_eq_flatMap, joinReached_eq_flatMap, sortReached_eq_flatMap]
  cases selector <;> simp [optionReached]

/-! ## Refusals -/

/-- Why an expression is refused for what it is itself. -/
def Expr.refusal? (table : Table) (strict : Bool) : Expr → Option CompileError
  | .project [] => some .emptyProjection
  | .member _ [] _ => some .emptyPath
  | .member root (base :: steps) _ => table.refusal? strict (root.bind (·.table)) (base :: steps)
  | _ => none

theorem Expr.refusal?_eq_none_iff {e : Expr} {table : Table} {strict : Bool} :
    e.refusal? table strict = none ↔
      e ≠ .project [] ∧ (∀ root type, e ≠ .member root [] type) ∧
        (strict → ∀ root base steps type, e = .member root (base :: steps) type →
          (∀ own ∈ root.bind (·.table), own = table.name) → (table.columnByMember? base).isSome) := by
  rcases e with _ | _ | _ | _ | _ | ⟨root, _ | ⟨base, steps⟩, type⟩ | _ | (_ | ⟨e, items⟩) | _
  case member.cons =>
    have hself : (Expr.member root (base :: steps) type).refusal? table strict = none ↔
        (strict → (∀ own ∈ root.bind (·.table), own = table.name) → (table.columnByMember? base).isSome) := by
      simp [Expr.refusal?, Table.refusal?, Option.isSome_iff_ne_none]
    rw [hself]
    refine ⟨fun h => ⟨by simp, by simp, fun hstrict _ _ _ _ heq => ?_⟩, fun h hstrict => h.2.2 hstrict _ _ _ _ rfl⟩
    cases heq
    exact h hstrict
  all_goals simp [Expr.refusal?]

/-- Resolving members leniently refuses none of them. -/
theorem Expr.isPathError_of_refusal? {e : Expr} {table : Table} {err : CompileError}
    (h : e.refusal? table false = some err) : err.isPathError = false := by
  rcases e with _ | _ | _ | _ | _ | ⟨root, _ | ⟨base, steps⟩, type⟩ | _ | (_ | ⟨e, items⟩) | _ <;>
    simp [Expr.refusal?, Table.refusal?] at h
  all_goals subst h; rfl

/-- The slots that refuse are the refusals of a list of expressions. -/
def RefusedBy (sc : Scope) (slots : List Slot) (reached : List Expr) : Prop :=
  ∀ err, .reject err ∈ slots ↔ ∃ x ∈ reached, x.refusal? sc.table sc.strict = some err

section RefusedBy

variable {sc : Scope}

theorem RefusedBy.nil : RefusedBy sc [] [] := by simp [RefusedBy]

theorem RefusedBy.append {slots slots' : List Slot} {reached reached' : List Expr} (h : RefusedBy sc slots reached)
    (h' : RefusedBy sc slots' reached') : RefusedBy sc (slots ++ slots') (reached ++ reached') := by
  intro err
  simp only [List.mem_append, h err, h' err, or_and_right, exists_or]

theorem RefusedBy.flatMap {α : Type} {xs : List α} {slots : α → List Slot} {reached : α → List Expr}
    (h : ∀ x ∈ xs, RefusedBy sc (slots x) (reached x)) : RefusedBy sc (xs.flatMap slots) (xs.flatMap reached) := by
  induction xs with
  | nil => exact .nil
  | cons x xs ih =>
    rw [List.flatMap_cons, List.flatMap_cons]
    exact (h x List.mem_cons_self).append (ih fun y hy => h y (List.mem_cons_of_mem _ hy))

/-- An expression that is not refused itself adds nothing to what it is made of. -/
theorem RefusedBy.cons {slots : List Slot} {reached : List Expr} {e : Expr}
    (he : e.refusal? sc.table sc.strict = none) (h : RefusedBy sc slots reached) :
    RefusedBy sc slots (e :: reached) := by
  intro err
  rw [h err]
  simp [he]

/-- The keys of a group join are reached from wherever its source stands. -/
theorem Source.refusedBy {s : Source}
    (ih : s.All fun e => ∀ sc m beside, RefusedBy sc (e.emit sc m beside).term.slots e.reached) (m : Mode)
    (beside : Bool) : RefusedBy sc (s.emit sc m beside).term.slots s.reached := by
  rw [Source.slots_emit, Source.reached_eq]
  refine RefusedBy.flatMap fun g hg => ?_
  obtain ⟨ihO, ihI⟩ := ih g (Option.mem_toList.1 hg)
  exact RefusedBy.append (ihI (s.copyScope sc) _ _) (ihO sc _ _)

theorem Query.refusedBy {q : Query}
    (ih : q.All fun e => ∀ sc m beside, RefusedBy sc (e.emit sc m beside).term.slots e.reached) :
    RefusedBy sc (q.emit sc).slots q.reached := by
  have hitems : RefusedBy (q.scope sc) (q.emitItems (q.scope sc)).slots q.itemsReached := by
    unfold Query.emitItems Query.itemsReached
    split
    · exact .nil
    · cases hsel : q.selector with
      | some e => exact ih.selector e hsel _ _ _
      | none => exact (Source.refusedBy ih.source _ _).cons rfl
  have hconditions : RefusedBy (q.scope sc)
      ((q.conditions.flatMap fun e => (e.emit (q.scope sc) {} false).term.slots) ++
        q.filters.map fun f => Slot.filter (f.command sc.table (some (q.tableName sc.table))))
      (q.conditions.flatMap Expr.reached) := by
    -- a filter is never refused
    intro err
    rw [← RefusedBy.flatMap (fun e he => ih.conditions e he (q.scope sc) {} false) err]
    simp
  rw [Query.slots_emit, Query.reached_eq]
  have hjoins := RefusedBy.flatMap fun j hj =>
    ((ih.joins j hj).1 (q.scope sc) {} false).append ((ih.joins j hj).2 (q.scope sc) {} false)
  have hgroups := RefusedBy.flatMap fun e he => ih.groupBy e he (q.scope sc) {} false
  have hkeys := RefusedBy.flatMap fun k hk => ih.orderBy k hk (q.scope sc) {} false
  exact (((hitems.append hjoins).append hconditions).append hgroups).append hkeys

/-- **The refusals of an emission** are those of the expressions reached. -/
theorem Expr.refusedBy_emit (e : Expr) (sc : Scope) (m : Mode) (beside : Bool) :
    RefusedBy sc (e.emit sc m beside).term.slots e.reached := by
  induction e using Expr.induction generalizing sc m beside with
  | source s ih => exact (Source.refusedBy ih m beside).cons rfl
  | subquery q ih => exact (Query.refusedBy ih).cons rfl
  | binary op left right ihl ihr =>
    rw [Expr.slots_binary, Expr.reached]
    refine RefusedBy.cons rfl ?_
    split
    · exact ihl _ _ _
    · split
      · exact ihr _ _ _
      · exact (ihl _ _ _).append (ihr _ _ _)
  | conditional test ifTrue ifFalse ihc iht ihf =>
    refine RefusedBy.cons rfl fun err => ?_
    have hparts := ((ihc sc m.inCase false).append (iht sc m.inCase false)).append (ihf sc m.inCase false)
    rw [← hparts err, List.append_assoc, List.mem_append, List.mem_append]
    exact mem_slots_caseTerm
  | constant value =>
    exact RefusedBy.cons rfl fun err => by simp [Expr.emit, Emitted.term, Emitted.ofTerm, caseTerm, Term.slots]
  | member root path type ih =>
    rw [Expr.slots_member, Expr.reached]
    cases path with
    | nil => intro err; simp [Expr.refusal?, eq_comm]
    | cons base steps =>
      have hroot : RefusedBy sc (root.toList.flatMap fun s => (s.emit sc m.forMemberRoot beside).term.slots)
          (rootReached root) := by
        rw [rootReached_eq_flatMap]
        exact RefusedBy.flatMap fun s hs => Source.refusedBy (ih s (Option.mem_toList.1 hs)) _ _
      intro err
      rw [if_neg (List.cons_ne_nil _ _), if_neg (List.cons_ne_nil _ _), List.mem_append, hroot err]
      simp [Expr.refusal?, or_comm]
  | call method receiver arguments ihr iha =>
    rw [Expr.slots_call, Expr.reached, listReached_eq_flatMap, optionReached_eq_flatMap]
    refine RefusedBy.cons rfl (.append ?_ (.flatMap fun e he => iha e he _ _ _))
    split
    · exact .nil
    · exact .flatMap fun e he => ihr e (Option.mem_toList.1 he) _ _ _
  | project items ih =>
    rw [Expr.slots_project, Expr.reached, listReached_eq_flatMap]
    cases items with
    | nil => intro err; simp [Expr.refusal?, eq_comm]
    | cons e rest => exact RefusedBy.cons rfl (.flatMap fun e he => ih e he _ _ _)
  | unary op operand ih =>
    refine RefusedBy.cons rfl ?_
    cases op with
    | not | convert | typeAs => exact ih _ _ _

end RefusedBy

theorem Query.refusedBy_emit (q : Query) (sc : Scope) : RefusedBy sc (q.emit sc).slots q.reached :=
  Query.refusedBy (Query.All.intro Expr.refusedBy_emit q)

/-! ## Lenient resolution -/

/-- The scope in which no member needs a column. -/
def Scope.lenient (sc : Scope) : Scope := { sc with strict := false }

/-- None of the expressions is refused. -/
def Scope.Accepts (sc : Scope) (reached : List Expr) : Prop :=
  ∀ x ∈ reached, x.refusal? sc.table sc.strict = none

/-- Where nothing is refused, an expression is emitted as it is without strictness. -/
def EmitsLenient (e : Expr) : Prop :=
  ∀ sc m beside, sc.Accepts e.reached → e.emit sc m beside = e.emit sc.lenient m beside

section Lenient

variable {sc : Scope}

theorem Scope.Accepts.of_append {reached reached' : List Expr} (h : sc.Accepts (reached ++ reached')) :
    sc.Accepts reached ∧ sc.Accepts reached' :=
  List.forall_mem_append.1 h

theorem Scope.Accepts.of_flatMap {α : Type} {xs : List α} {reached : α → List Expr}
    (h : sc.Accepts (xs.flatMap reached)) :
    ∀ x ∈ xs, sc.Accepts (reached x) :=
  fun x hx y hy => h y (List.mem_flatMap.2 ⟨x, hx, hy⟩)

/-- A member that is not refused is named the same way. -/
theorem memberTerm_lenient {own : Option String} {base : String} {steps : List String}
    (h : sc.table.refusal? sc.strict own (base :: steps) = none) (qualifier : Term Slot) (m : Mode) :
    memberTerm sc own qualifier (base :: steps) m = memberTerm sc.lenient own qualifier (base :: steps) m := by
  obtain ⟨rest, hrest⟩ := take_lengthDepth base steps
  have hcolumn : columnTerm sc own qualifier (base :: rest) = columnTerm sc.lenient own qualifier (base :: rest) := by
    have hlenient : sc.lenient.column? own base = sc.column? own base := rfl
    simp only [columnTerm, hlenient]
    cases hc : sc.column? own base with
    | some c => rfl
    | none =>
      -- strictness would have refused a member of the described table
      have hadmitted : (sc.strict && !sc.isForeign own) = false := by
        simp only [Table.refusal?, List.headD_cons, ite_eq_right_iff, reduceCtorEq, imp_false,
          ← Scope.isForeign_eq_false_iff] at h
        simp only [Scope.column?] at hc
        cases hforeign : sc.isForeign own <;> simp_all
      simp [hadmitted, Scope.lenient]
  simp only [memberTerm, hrest, hcolumn]

theorem Source.emit_lenient {s : Source} (ih : s.All EmitsLenient) (h : sc.Accepts s.reached) (m : Mode)
    (beside : Bool) :
    s.emit sc m beside = s.emit sc.lenient m beside := by
  obtain ⟨typeName, members, own, _ | ⟨outer, inner⟩⟩ := s
  · rfl
  · obtain ⟨ihO, ihI⟩ := ih _ rfl
    obtain ⟨hinner, houter⟩ := h.of_append
    simp only [Source.emit]
    rw [ihI { sc with qualifier := some ("temp_" ++ sc.tableName own) } {} beside hinner, ihO sc {} _ houter]
    rfl

theorem emitEach_lenient {es : List Expr} (ih : ∀ e ∈ es, EmitsLenient e) (h : sc.Accepts (es.flatMap Expr.reached))
    (m : Mode) (beside : Bool) : emitEach es sc m beside = emitEach es sc.lenient m beside := by
  rw [emitEach_eq_map, emitEach_eq_map]
  exact List.map_congr_left fun e he => by rw [ih e he sc m beside (h.of_flatMap e he)]

theorem Query.emit_lenient_of_all {q : Query} (ih : q.All EmitsLenient) (h : sc.Accepts q.reached) :
    q.emit sc = q.emit sc.lenient := by
  rw [Query.reached_eq] at h
  obtain ⟨h, horderBy⟩ := h.of_append
  obtain ⟨h, hgroupBy⟩ := h.of_append
  obtain ⟨h, hconditions⟩ := h.of_append
  obtain ⟨hitems, hjoins⟩ := h.of_append
  have hlist : ∀ es : List Expr, (∀ e ∈ es, EmitsLenient e) → (q.scope sc).Accepts (es.flatMap Expr.reached) →
      (es.map fun e => (e.emit (q.scope sc) {} false).term) =
        es.map fun e => (e.emit (q.scope sc.lenient) {} false).term := by
    intro es hes h
    rw [← emitEach_eq_map, ← emitEach_eq_map]
    exact emitEach_lenient hes h {} false
  have hitems' : q.emitItems (q.scope sc) = q.emitItems (q.scope sc.lenient) := by
    unfold Query.itemsReached at hitems
    unfold Query.emitItems
    split
    · rfl
    · rename_i hcount
      rw [if_neg hcount] at hitems
      cases hsel : q.selector with
      | some e =>
        rw [hsel] at hitems
        exact congrArg Emitted.term (ih.selector e hsel (q.scope sc) {} false hitems)
      | none =>
        rw [hsel] at hitems
        have hsource : (q.scope sc).Accepts q.source.reached := (List.forall_mem_cons.1 hitems).2
        exact congrArg Emitted.term (Source.emit_lenient ih.source hsource {} false)
  have hjoins' : q.joins.map (Join.emit · (q.scope sc)) = q.joins.map (Join.emit · (q.scope sc.lenient)) := by
    refine List.map_congr_left fun j hj => ?_
    obtain ⟨houter, hinner⟩ := (hjoins.of_flatMap j hj).of_append
    simp only [Join.emit]
    rw [(ih.joins j hj).1 (q.scope sc) {} false houter, (ih.joins j hj).2 (q.scope sc) {} false hinner]
    rfl
  have horderBy' : q.orderBy.map (SortKey.emit · (q.scope sc)) =
      q.orderBy.map (SortKey.emit · (q.scope sc.lenient)) := by
    refine List.map_congr_left fun k hk => ?_
    simp only [SortKey.emit]
    rw [ih.orderBy k hk (q.scope sc) {} false (horderBy.of_flatMap k hk)]
    rfl
  rw [Query.emit_eq, Query.emit_eq, hitems', hjoins', horderBy', hlist _ ih.conditions hconditions,
    hlist _ ih.groupBy hgroupBy]
  rfl

/-- **Strictness changes nothing** where nothing is refused. -/
theorem Expr.emit_lenient (e : Expr) : EmitsLenient e := by
  induction e using Expr.induction with
  | source s ih => exact fun sc m beside h => Source.emit_lenient ih (List.forall_mem_cons.1 h).2 m beside
  | subquery q ih =>
    intro sc m beside h
    simp only [Expr.emit]
    rw [Query.emit_lenient_of_all ih (List.forall_mem_cons.1 h).2]
  | binary op left right ihl ihr =>
    intro sc m beside h
    have hparts := (List.forall_mem_cons.1 h).2
    simp only [Expr.emit]
    by_cases hright : op.isEquality && right.isNull
    · rw [if_pos hright] at hparts
      rw [if_pos hright, if_pos hright, ihl sc _ false hparts]
    · rw [if_neg hright] at hparts
      rw [if_neg hright, if_neg hright]
      by_cases hleft : op.isEquality && left.isNull
      · rw [if_pos hleft] at hparts
        rw [if_pos hleft, if_pos hleft, ihr sc _ false hparts]
      · rw [if_neg hleft] at hparts
        obtain ⟨hl, hr⟩ := Scope.Accepts.of_append hparts
        rw [if_neg hleft, if_neg hleft, ihl sc _ false hl, ihr sc _ _ hr]
  | conditional test ifTrue ifFalse ihc iht ihf =>
    intro sc m beside h
    obtain ⟨h, hf⟩ := Scope.Accepts.of_append (List.forall_mem_cons.1 h).2
    obtain ⟨hc, ht⟩ := Scope.Accepts.of_append h
    simp only [Expr.emit]
    rw [ihc sc _ _ hc, iht sc _ _ ht, ihf sc _ _ hf]
  | constant value => exact fun sc m beside _ => rfl
  | member root path type ih =>
    intro sc m beside h
    cases path with
    | nil => rfl
    | cons base steps =>
      obtain ⟨hself, hroot⟩ := List.forall_mem_cons.1 h
      have hqualifier : emitRoot root sc m.forMemberRoot beside = emitRoot root sc.lenient m.forMemberRoot beside := by
        cases root with
        | none => rfl
        | some s => exact congrArg Emitted.term (Source.emit_lenient (ih s rfl) hroot _ _)
      simp only [Expr.emit, List.isEmpty_cons, Bool.false_eq_true, if_false]
      rw [hqualifier, memberTerm_lenient hself]
  | call method receiver arguments ihr iha =>
    intro sc m beside h
    obtain ⟨hreceiver, harguments⟩ := Scope.Accepts.of_append (List.forall_mem_cons.1 h).2
    rw [listReached_eq_flatMap] at harguments
    simp only [Expr.emit]
    by_cases hconcat : method = .concat
    · rw [if_pos hconcat, if_pos hconcat, emitEach_lenient iha harguments]
    · rw [if_neg hconcat] at hreceiver
      rw [if_neg hconcat, if_neg hconcat]
      cases receiver with
      | none => simp only [emitOption, emitEach_lenient iha harguments]
      | some r => simp only [emitOption, ihr r rfl sc m.operand false hreceiver, emitEach_lenient iha harguments]
  | project items ih =>
    intro sc m beside h
    have hitems := (List.forall_mem_cons.1 h).2
    rw [listReached_eq_flatMap] at hitems
    simp only [Expr.emit, emitEach_lenient ih hitems]
  | unary op operand ih =>
    intro sc m beside h
    have hoperand := (List.forall_mem_cons.1 h).2
    cases op with
    | not | convert | typeAs => simp only [Expr.emit]; rw [ih sc _ _ hoperand]

theorem Query.emit_lenient (q : Query) (h : sc.Accepts q.reached) : q.emit sc = q.emit sc.lenient :=
  Query.emit_lenient_of_all (Query.All.intro Expr.emit_lenient q) h

end Lenient

/-! ## Compilation -/

section Compile

variable {q : Query} {table : Table} {settings : Settings}

/-- A query fails with the refusal of an expression that is reached. -/
theorem Query.refusal_of_error {err : CompileError} (h : q.compile table settings = .error err) :
    ∃ e ∈ q.reached, e.refusal? table settings.strict = some err := by
  rcases q.compile_cases table settings with ⟨u, r, -, -, hok⟩ | ⟨err', r, hrefuses, herr⟩
  · rw [hok] at h
    cases h
  · rw [herr] at h
    cases h
    obtain ⟨slot, hslot, hreject⟩ := List.exists_of_findSome?_eq_some hrefuses.findSome?
    cases slot with
    | reject err =>
      cases hreject
      exact (Query.refusedBy_emit q (.ofSettings table settings none) err).1 hslot
    | value v asText | filter c => cases hreject

/-- A query compiles when nothing that is reached is refused, and only then. -/
theorem Query.compile_ok_iff :
    (∃ c, q.compile table settings = .ok c) ↔ ∀ e ∈ q.reached, e.refusal? table settings.strict = none := by
  constructor
  · rintro ⟨c, hc⟩ e he
    by_contra hrefused
    obtain ⟨err, herr⟩ := Option.ne_none_iff_exists'.1 hrefused
    have hslot := (Query.refusedBy_emit q (.ofSettings table settings none) err).2 ⟨e, he, herr⟩
    rcases q.compile_cases table settings with ⟨u, r, hu, hvisits, -⟩ | ⟨err', r, -, herr'⟩
    · have hnone := hvisits.findSome?
      rw [← Select.slots_map, hu, List.findSome?_eq_none_iff] at hnone
      cases hnone _ hslot
    · rw [herr'] at hc
      cases hc
  · intro h
    cases hc : q.compile table settings with
    | ok c => exact ⟨c, rfl⟩
    | error err =>
      obtain ⟨e, he, herr⟩ := Query.refusal_of_error hc
      rw [h e he] at herr
      cases herr

/-- **When a query compiles.** It does exactly when no expression that is reached
is a projection of nothing, a member without a name or, if members are resolved
strictly, a member of the described table without a column; and it fails with the
refusal of one of these. Lenient resolution refuses no path, and gives the command
that strict resolution gives. -/
theorem compile_succeeds_iff (q : Query) (table : Table) (settings : Settings) :
    ((∃ c, q.compile table settings = .ok c) ↔
      ∀ e ∈ q.reached, e ≠ .project [] ∧ (∀ root type, e ≠ .member root [] type) ∧
        (settings.strict → ∀ root base steps type, e = .member root (base :: steps) type →
          (∀ own ∈ root.bind (·.table), own = table.name) → (table.columnByMember? base).isSome)) ∧
    (∀ err, q.compile table settings = .error err → ∃ e ∈ q.reached, e.refusal? table settings.strict = some err) ∧
    (∀ err, q.compile table { settings with strict := false } = .error err → err.kind ≠ "AmbiguousPath") ∧
    (∀ c, q.compile table { settings with strict := true } = .ok c →
      q.compile table { settings with strict := false } = .ok c) := by
  refine ⟨?_, fun err => Query.refusal_of_error, fun err herr => ?_, fun c hc => ?_⟩
  · simp only [Query.compile_ok_iff, Expr.refusal?_eq_none_iff]
  · obtain ⟨e, -, he⟩ := Query.refusal_of_error herr
    rw [CompileError.kind, Expr.isPathError_of_refusal? he]
    decide
  · have haccepts : (Scope.ofSettings table { settings with strict := true } none).Accepts q.reached :=
      Query.compile_ok_iff.1 ⟨c, hc⟩
    rw [← hc, Query.compile, Query.compile, Query.emit_lenient q haccepts]
    rfl

end Compile

end ParamQuery
