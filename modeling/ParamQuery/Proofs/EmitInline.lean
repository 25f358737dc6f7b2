/-
Emission writes each value where it occurs: what a query becomes, with the
values of its slots in their places, is the statement that `Query.inline`
writes (`Query.pieces_emit`). The proof follows the expression; below a
conditional it carries the guards of the arms around (`Inlines`).
-/
import ParamQuery.Proofs.BuiltTerms
import ParamQuery.Proofs.Inline
import Mathlib.Logic.Function.Iterate

namespace ParamQuery

open Sql

/-! ## JSON text -/

theorem Source.jsonText_emit {s : Source}
    (ih : s.All fun e => ∀ sc m beside, (e.emit sc m beside).jsonText = e.isJsonText beside) (sc : Scope) (m : Mode)
    (beside : Bool) : (s.emit sc m beside).jsonText = s.isJsonText beside := by
  obtain ⟨typeName, members, own, groupJoin⟩ := s
  cases groupJoin with
  | none =>
    simp only [Source.emit, Source.isJsonText]
    split <;> rfl
  | some g =>
    obtain ⟨outer, inner⟩ := g
    obtain ⟨ihO, ihI⟩ := ih _ rfl
    simp only [Source.emit, Source.isJsonText, Emitted.ofTerm, ihO, ihI]

theorem Expr.jsonText_emit (e : Expr) (sc : Scope) (m : Mode) (beside : Bool) :
    (e.emit sc m beside).jsonText = e.isJsonText beside := by
  induction e using Expr.induction generalizing sc m beside with
  | source s ih => exact Source.jsonText_emit ih sc m beside
  | subquery q _ => rfl
  | binary op left right _ _ =>
    simp only [Expr.emit, Expr.isJsonText]
    split
    · rfl
    · split <;> rfl
  | conditional test ifTrue ifFalse _ _ _ => rfl
  | constant value => rfl
  | member root path type _ =>
    simp only [Expr.emit, Expr.isJsonText]
    cases path with
    | nil => rfl
    | cons step path => simp [memberTerm, Emitted.ofTerm, Bool.and_comm]
  | call method receiver arguments ihr _ =>
    simp only [Expr.emit, Expr.isJsonText]
    split
    · rename_i hconcat
      simp [hconcat, Method.transformsReceiver, Emitted.ofTerm]
    · cases receiver with
      | none => simp [emitOption, optionIsJsonText, Emitted.ofTerm]
      | some r => simp [emitOption, optionIsJsonText, Emitted.ofTerm, ihr r rfl]
  | project items _ =>
    simp only [Expr.emit, Expr.isJsonText]
    split <;> rfl
  | unary op operand ih =>
    cases op with
    | not | convert | typeAs => exact ih _ _ _

/-! ## Terms -/

/-- The text of a term with its values in it. -/
def Sql.Term.pieces (t : Term Slot) : List Piece := t.fragment.pieces Slot.pieces

/-- Whether a slot can be settled. -/
def Slot.isAccepted : Slot → Bool
  | .reject _ => false
  | _ => true

/-- No slot of the term refuses. -/
def Sql.Term.Accepted (t : Term Slot) : Prop := ∀ s ∈ t.slots, s.isAccepted

/-- The text of guarded arms, and of the value behind them. -/
def armPieces (d : List (List (Term Slot) × Term Slot) × Term Slot) : List Piece × List Piece :=
  (d.1.flatMap fun arm => (Arm.mk arm.1 arm.2).fragment.pieces Slot.pieces, d.2.pieces)

theorem pieces_arm (guards : List (Term Slot)) (value : Term Slot) :
    (Arm.mk guards value).fragment.pieces Slot.pieces =
      verbatim " WHEN " ++ conjunction (guards.map Term.pieces) ++ verbatim " THEN " ++ value.pieces := by
  have hguards : (guardFragment (guards.map Term.fragment)).pieces Slot.pieces =
      conjunction (guards.map Term.pieces) := by
    rw [pieces_guardFragment, List.map_map]
    rfl
  simp [Arm.fragment, hguards, Term.pieces]

theorem pieces_caseTerm (d : Decision (Term Slot)) : (caseTerm d).pieces = casePieces (armPieces d.flatten) := by
  cases d with
  | leaf t => rfl
  | test condition ifTrue ifFalse =>
    -- the arm of the test itself is not empty
    have hne : (armPieces (Decision.test condition ifTrue ifFalse).flatten).1 ≠ [] := by
      simp only [Decision.flatten, Decision.flattenUnder, armPieces, List.flatMap_append, List.flatMap_cons,
        pieces_arm]
      simp [verbatim, plain]
    rw [casePieces, if_neg (by simpa using hne)]
    simp only [caseTerm, Term.pieces, Term.fragment, armFragments_eq_flatMap, Fragment.pieces_append,
      Fragment.pieces_cons, pieces_flatMap, List.flatMap_map, pieces_text, Fragment.pieces_nil, armPieces]
    simp

/-- What is accepted is accepted in every branch. -/
theorem accepted_of_caseTerm {d : Decision (Term Slot)} (h : (caseTerm d).Accepted) : d.All Term.Accepted := by
  have hunder : ∀ (d : Decision (Term Slot)) (guards : List (Term Slot)),
      (∀ arm ∈ (d.flattenUnder guards).1, (∀ g ∈ arm.1, g.Accepted) ∧ arm.2.Accepted) →
      (d.flattenUnder guards).2.Accepted → d.All Term.Accepted := by
    intro d
    induction d with
    | leaf t => exact fun _ _ hvalue => hvalue
    | test condition ifTrue ifFalse ihT ihF =>
      intro guards harms hvalue
      simp only [Decision.flattenUnder, List.mem_append, List.mem_cons] at harms
      have hown := harms _ (.inr (.inl rfl))
      exact ⟨hown.1 condition (by simp), ihT _ (fun arm harm => harms arm (.inl harm)) hown.2,
        ihF _ (fun arm harm => harms arm (.inr (.inr harm))) hvalue⟩
  cases d with
  | leaf t => exact h
  | test condition ifTrue ifFalse =>
    have hslots : ∀ s, (∃ arm ∈ (Decision.test condition ifTrue ifFalse).flatten.1, s ∈ (Arm.mk arm.1 arm.2).slots) ∨
        s ∈ (Decision.test condition ifTrue ifFalse).flatten.2.slots → s.isAccepted := by
      intro s hs
      refine h s ?_
      simpa only [caseTerm, Term.slots, armSlots_eq_flatMap, List.flatMap_map, List.mem_append, List.mem_flatMap]
        using hs
    refine hunder _ [] (fun arm harm => ⟨fun g hg s hs => hslots s (.inl ⟨arm, harm, ?_⟩),
      fun s hs => hslots s (.inl ⟨arm, harm, ?_⟩)⟩) fun s hs => hslots s (.inr hs)
    · exact List.mem_append_left _ (List.mem_flatMap.2 ⟨g, hg, hs⟩)
    · exact List.mem_append_right _ hs

theorem Sql.Term.Accepted.mono {t u : Term Slot} (h : u.Accepted) (hsub : t.slots ⊆ u.slots) : t.Accepted :=
  fun s hs => h s (hsub hs)

theorem pieces_parenIf (wrap : Bool) (t : Term Slot) : (parenIf wrap t).pieces = bracketIf wrap t.pieces := by
  cases wrap
  · rfl
  · exact pieces_parenthesized _ _

theorem slots_parenIf (wrap : Bool) (t : Term Slot) : (parenIf wrap t).slots = t.slots := by
  cases wrap <;> rfl

theorem pieces_list (items : List (Term Slot)) :
    (Term.list items).pieces = interspersed ", " (items.map Term.pieces) := by
  rw [Term.pieces, Term.fragment, pieces_separated, termFragments_eq_map, List.map_map]
  rfl

theorem pieces_table (name : String) : (Term.table name : Term Slot).pieces = namePieces name := by
  simp [Term.pieces, Term.fragment]

theorem pieces_column (qualifier : Term Slot) (name : String) (steps : List String) :
    (Term.column qualifier name steps).pieces =
      qualifier.pieces ++ verbatim "." ++ namePieces name ++ stepPieces steps := by
  simp [Term.pieces, Term.fragment, pieces_traversal]

theorem pieces_labelled (t : Term Slot) (label : String) :
    (Term.labelled t label).pieces = t.pieces ++ verbatim " AS " ++ namePieces label := by
  simp [Term.pieces, Term.fragment]

theorem pieces_groupCount (table copy : String) (inner outer : Term Slot) :
    (Term.groupCount table copy inner outer).pieces =
      verbatim "(SELECT COUNT(*) FROM " ++ namePieces table ++ verbatim " AS " ++ namePieces copy ++
        verbatim " WHERE " ++ inner.pieces ++ verbatim " = " ++ outer.pieces ++ verbatim ")" := by
  simp [Term.pieces, Term.fragment]

theorem pieces_sourceTerm (table : String) (columns : List (String × String)) :
    (sourceTerm table columns).pieces = sourcePieces table columns := by
  unfold sourceTerm sourcePieces
  split
  · simp [Term.pieces, Term.fragment]
  · rw [pieces_list, List.map_map]
    refine congrArg (interspersed ", ") (List.map_congr_left fun c _ => ?_)
    rw [Function.comp_apply, pieces_column, pieces_table, stepPieces, List.append_nil]

theorem pieces_groupJoinTerm (table typeName : String) (columns : List (String × String)) (inner outer : Term Slot) :
    (groupJoinTerm table typeName columns inner outer).pieces =
      groupJoinPieces table typeName columns inner.pieces outer.pieces := by
  have hcolumns : columns.map (fun c => (Term.labelled (β := Slot) (.column (.table table) c.2 [])
        (typeName ++ "." ++ c.1)).pieces) =
      columns.map fun c => namePieces table ++ verbatim "." ++ namePieces c.2 ++ verbatim " AS " ++
        namePieces (typeName ++ "." ++ c.1) := by
    refine List.map_congr_left fun c _ => ?_
    rw [pieces_labelled, pieces_column, pieces_table, stepPieces, List.append_nil]
  rw [groupJoinTerm, pieces_list, List.map_cons, List.map_cons, List.map_nil, pieces_list, List.map_map,
    pieces_labelled, pieces_groupCount, groupJoinPieces]
  simp only [interspersed, Function.comp_def, hcolumns, List.append_assoc]

/-! ## Calls -/

theorem pieces_call (method : Method) (n : Nat) (arguments : List (Term Slot)) :
    (Term.call (.ofMethod method n) arguments).pieces =
      (method.layout n).pieces fun i => (arguments.map Term.pieces).getD i [] := by
  rw [Term.pieces, Term.fragment, termFragments_eq_map, Template.expand_eq_splice, Method.fragment_ofMethod,
    Fragment.splice_map, Fragment.pieces_splice]
  refine Fragment.pieces_congr fun i _ => ?_
  simp only [List.getD_eq_getElem?_getD, List.getElem?_map]
  cases arguments[i]? <;> rfl

/-- The layout of a call with a receiver is the call. -/
theorem Method.pieces_layout {method : Method} (hconcat : method ≠ .concat) {receiver : List Piece}
    {arguments : List (List Piece)} {n : Nat} (hlength : arguments.length = n) (haccepts : method.accepts n) :
    (method.layout n).pieces (fun i => (receiver :: arguments).getD i []) = method.inline receiver arguments := by
  subst hlength
  cases method with
  | concat => exact absurd rfl hconcat
  | substring =>
    simp only [Method.accepts, Method.minArguments, Method.maxArguments, Bool.and_eq_true] at haccepts
    have hmin : 1 ≤ arguments.length := of_decide_eq_true haccepts.1
    by_cases hone : arguments.length = 1
    · simp [Method.layout, Method.inline, hone]
    · have htwo : 1 < arguments.length := by omega
      simp [Method.layout, Method.inline, hone, htwo]
  | equals | toLower | toUpper | reverse | length | replace | trim | trimStart | trimEnd | contains | startsWith
  | endsWith => simp [Method.layout, Method.inline]

/-! ## Members -/

theorem pieces_lengths (n : Nat) (t : Term Slot) :
    (lengths n t).pieces = (fun p => verbatim "LENGTH(" ++ p ++ verbatim ")")^[n] t.pieces := by
  induction n with
  | zero => rfl
  | succ n ih =>
    rw [Function.iterate_succ_apply', ← ih]
    simp [lengths, Term.pieces, Term.fragment]

theorem slots_lengths (n : Nat) (t : Term Slot) : (lengths n t).slots = t.slots := by
  induction n with
  | zero => rfl
  | succ n ih => exact ih

/-- A column that is accepted was found, or is named as it is. -/
theorem columnTerm_of_accepted {sc : Scope} {own : Option String} {qualifier : Term Slot} {path : List String}
    (h : (columnTerm sc own qualifier path).Accepted) :
    columnTerm sc own qualifier path = .column qualifier
      (((sc.column? own (path.headD "")).map (·.dbName)).getD (path.headD "")) (path.drop 1) := by
  cases path with
  | nil => exact absurd (h (.reject .emptyPath) (by simp [columnTerm, Term.slots])) (by simp [Slot.isAccepted])
  | cons base steps =>
    simp only [columnTerm, List.headD_cons, List.drop_one, List.tail_cons] at h ⊢
    cases hc : sc.column? own base with
    | some c => rfl
    | none =>
      rw [hc] at h
      by_cases hstrict : sc.strict && !sc.isForeign own
      · simp only [hstrict, if_true] at h
        exact absurd (h (.reject (.unresolvedMember (base :: steps) sc.table.name)) (by simp [Term.slots, termSlots]))
          (by simp [Slot.isAccepted])
      · simp [hstrict]

theorem slots_memberTerm (sc : Scope) (own : Option String) (qualifier : Term Slot) (path : List String) (m : Mode) :
    (memberTerm sc own qualifier path m).term.slots =
      (columnTerm sc own qualifier (path.take (path.length - lengthDepth path))).slots := by
  simp only [memberTerm, Emitted.term, Emitted.ofTerm, caseTerm, labelIf]
  split
  · rw [Term.slots, slots_lengths]
  · rw [slots_lengths]

theorem pieces_memberTerm {sc : Scope} {own : Option String} {qualifier : Term Slot} {path : List String} {m : Mode}
    (h : (memberTerm sc own qualifier path m).term.Accepted) :
    qualifier.Accepted ∧
      (memberTerm sc own qualifier path m).term.pieces = memberPieces sc own qualifier.pieces path m := by
  rw [Term.Accepted, slots_memberTerm] at h
  have hcolumn := columnTerm_of_accepted h
  refine ⟨by rw [hcolumn] at h; exact h, ?_⟩
  simp only [memberTerm, Emitted.term, Emitted.ofTerm, caseTerm, labelIf, memberPieces]
  split
  · rw [pieces_labelled, pieces_lengths, hcolumn, pieces_column]
  · rw [pieces_lengths, hcolumn, pieces_column]

/-! ## Emission -/

/-- The filters of a query that stands as an expression are readable. -/
def Expr.FiltersReadable : Expr → Prop
  | .subquery q => ∀ f ∈ q.filters, f.Readable
  | _ => True

/-- What has to be known of the expressions inside a query for its values to
stand where they occur: calls are such as their methods accept, and filters are
readable. -/
def Expr.Regular : Expr → Prop
  | .call method receiver arguments => ∃ e, Expr.callOf method receiver arguments = .ok e
  | e => e.FiltersReadable

/-- An expression is written as its emission is, whatever the guards of the
conditionals around it. -/
def Inlines (e : Expr) : Prop :=
  (∀ x ∈ e.subterms, x.Regular) → ∀ (sc : Scope) (m : Mode) (beside : Bool),
    (e.emit sc m beside).tree.All Term.Accepted → ∀ guards : List (Term Slot),
      armPieces ((e.emit sc m beside).tree.flattenUnder guards) =
        e.inlineUnder sc m beside (guards.map Term.pieces)

theorem Inlines.term {e : Expr} (h : Inlines e) (hreg : ∀ x ∈ e.subterms, x.Regular) {sc : Scope} {m : Mode}
    {beside : Bool} (hacc : (e.emit sc m beside).term.Accepted) :
    (e.emit sc m beside).term.pieces = casePieces (e.inlineUnder sc m beside []) := by
  rw [Emitted.term, pieces_caseTerm, Decision.flatten, h hreg sc m beside (accepted_of_caseTerm hacc) []]
  rfl

theorem Source.tree_emit (s : Source) (sc : Scope) (m : Mode) (beside : Bool) :
    (s.emit sc m beside).tree = .leaf (s.emit sc m beside).term := by
  obtain ⟨typeName, members, own, _ | ⟨outer, inner⟩⟩ := s
  · simp only [Source.emit]
    split <;> rfl
  · rfl

/-- Only a conditional has branches. -/
theorem Expr.tree_eq_leaf {e : Expr} (h : ∀ test ifTrue ifFalse, e ≠ .conditional test ifTrue ifFalse) (sc : Scope)
    (m : Mode) (beside : Bool) : (e.emit sc m beside).tree = .leaf (e.emit sc m beside).term := by
  cases e with
  | source s => exact Source.tree_emit s sc m beside
  | subquery q => rfl
  | binary op left right =>
    simp only [Expr.emit]
    split
    · rfl
    · split <;> rfl
  | conditional test ifTrue ifFalse => exact absurd rfl (h test ifTrue ifFalse)
  | constant value => rfl
  | member root path type =>
    simp only [Expr.emit]
    split <;> rfl
  | call method receiver arguments =>
    simp only [Expr.emit]
    split
    · rfl
    · cases receiver <;> rfl
  | project items =>
    simp only [Expr.emit]
    split <;> rfl
  | unary op operand => cases op <;> rfl

theorem Source.pieces_emit {s : Source} (ih : s.All Inlines) (hreg : ∀ x ∈ s.subterms, x.Regular) {sc : Scope}
    {m : Mode} {beside : Bool} (hacc : (s.emit sc m beside).term.Accepted) :
    (s.emit sc m beside).term.pieces = s.inline sc m beside := by
  have hkeys := Source.all_of_subterms hreg
  obtain ⟨typeName, members, own, groupJoin⟩ := s
  cases groupJoin with
  | none =>
    simp only [Source.emit, Source.inline]
    split
    · exact pieces_table _
    · exact pieces_sourceTerm _ _
  | some g =>
    obtain ⟨outer, inner⟩ := g
    obtain ⟨ihO, ihI⟩ := ih _ rfl
    obtain ⟨hO, hI⟩ := hkeys _ rfl
    change (groupJoinTerm _ _ _ (Emitted.term _) (Emitted.term _)).Accepted at hacc
    have hinner := ihI.term hI (hacc.mono fun s hs => by
      simp only [groupJoinTerm, Term.slots, termSlots, List.mem_append]
      exact .inr (.inl (.inl hs)))
    have houter := ihO.term hO (hacc.mono fun s hs => by
      simp only [groupJoinTerm, Term.slots, termSlots, List.mem_append]
      exact .inr (.inl (.inr hs)))
    change (groupJoinTerm _ _ _ (Emitted.term _) (Emitted.term _)).pieces = _
    rw [pieces_groupJoinTerm, hinner, houter, Expr.jsonText_emit]
    rfl

/-! ## Queries -/

theorem inlineEach_eq_map (es : List Expr) (sc : Scope) (m : Mode) (beside : Bool) :
    inlineEach es sc m beside = es.map fun e => casePieces (e.inlineUnder sc m beside []) := by
  induction es with
  | nil => rfl
  | cons e es ih => simp [inlineEach, ih]

theorem inlineJoins_eq_flatMap (js : List Join) (sc : Scope) :
    inlineJoins js sc = js.flatMap fun j =>
      verbatim " " ++ (verbatim j.kind.keyword ++ verbatim " " ++ namePieces j.table ++ verbatim " ON " ++
        casePieces (j.outer.inlineUnder sc {} false []) ++ verbatim " = " ++
        casePieces (j.inner.inlineUnder sc {} false [])) := by
  induction js with
  | nil => rfl
  | cons j js ih =>
    obtain ⟨kind, table, outer, inner⟩ := j
    simp [inlineJoins, ih]

theorem inlineSortKeys_eq_map (ks : List SortKey) (sc : Scope) :
    inlineSortKeys ks sc = ks.map fun k =>
      casePieces (k.key.inlineUnder sc {} false []) ++ verbatim " " ++ verbatim k.direction.keyword := by
  induction ks with
  | nil => rfl
  | cons k ks ih =>
    obtain ⟨key, direction⟩ := k
    simp [inlineSortKeys, ih]

/-- The select list of a query. -/
def Query.inlineItems (q : Query) (sc : Scope) : List Piece :=
  if q.count then verbatim "COUNT(*)"
  else if q.selector.isSome then inlineOption q.selector sc {}
  else q.source.inline sc {} false

/-- A statement, given its clauses. -/
def clausesPieces (distinct : Bool) (items source joins : List Piece) (conditions groups keys : List (List Piece))
    (limit : Option String) (offset : Option Nat) : List Piece :=
  verbatim "SELECT " ++ (if distinct then verbatim "DISTINCT " else []) ++ items ++ verbatim " FROM " ++ source ++
    joins ++ (if conditions.isEmpty then [] else verbatim " WHERE " ++ conjunction conditions) ++
    clausePieces " GROUP BY " groups ++ clausePieces " ORDER BY " keys ++
    (match limit with
      | none => []
      | some n => verbatim " LIMIT " ++ verbatim n) ++
    (match offset with
      | none => []
      | some n => verbatim " OFFSET " ++ verbatim (toString n))

theorem Query.inline_eq (q : Query) (sc : Scope) :
    q.inline sc = clausesPieces q.distinct (q.inlineItems (q.scope sc)) (tablePieces sc.table (q.tableName sc.table))
      (inlineJoins q.joins (q.scope sc))
      (inlineEach q.conditions (q.scope sc) {} false ++
        q.filters.map (Filter.inline sc.table (some (q.tableName sc.table))))
      (inlineEach q.groupBy (q.scope sc) {} false) (inlineSortKeys q.orderBy (q.scope sc))
      (q.limit.map limitText) q.offset := by
  obtain ⟨source, selector, joins, conditions, filters, groupBy, orderBy, limit, offset, distinct, count⟩ := q
  cases limit <;> rfl

theorem pieces_statement {β : Type} (g : β → List Piece) (f : Frame β) :
    f.statement.pieces g =
      clausesPieces f.distinct (f.select.pieces g) (f.source.pieces g)
        (f.joins.flatMap fun j => verbatim " " ++ j.pieces g) (f.conditions.map (Fragment.pieces g))
        (f.groupBy.map (Fragment.pieces g)) (f.orderBy.map (Fragment.pieces g)) f.limit f.offset := by
  unfold clausesPieces
  rw [← pieces_whereClause, ← pieces_listClause, ← pieces_listClause, Frame.statement]
  cases f.distinct <;> cases f.limit <;> cases f.offset <;> simp [pieces_flatMap]

theorem Sql.Select.pieces_eq (s : Select Slot) :
    s.frame.statement.pieces Slot.pieces =
      clausesPieces s.distinct s.items.pieces (s.sourceFragment.pieces Slot.pieces)
        (s.joins.flatMap fun j => verbatim " " ++ j.fragment.pieces Slot.pieces) (s.conditions.map Term.pieces)
        (s.groupBy.map Term.pieces) (s.orderBy.map fun k => k.fragment.pieces Slot.pieces)
        (s.limit.map limitText) s.offset := by
  rw [pieces_statement, Select.frame_eq]
  simp only [List.flatMap_map, List.map_map]
  rfl

theorem pieces_sourceFragment (table : Table) {s : Select Slot}
    (h : s.schema = if s.table = table.name then table.schema else none) :
    s.sourceFragment.pieces Slot.pieces = tablePieces table s.table := by
  unfold Select.sourceFragment tablePieces
  rw [← h]
  cases s.schema <;> simp [Fragment.qualified]

theorem Query.pieces_emitItems {q : Query} (ih : q.All Inlines) (hreg : ∀ x ∈ q.subterms, x.Regular) {sc : Scope}
    (hacc : (q.emitItems sc).Accepted) : (q.emitItems sc).pieces = q.inlineItems sc := by
  have hparts := Query.all_of_subterms hreg
  have hsource : ∀ x ∈ q.source.subterms, x.Regular := by
    intro x hx
    refine hreg x ?_
    rw [Query.subterms_eq]
    simp [hx]
  unfold Query.emitItems at hacc ⊢
  unfold Query.inlineItems
  by_cases hcount : q.count
  · simp [hcount, Term.pieces, Term.fragment]
  · simp only [hcount] at hacc ⊢
    cases hsel : q.selector with
    | some e =>
      simp only [hsel] at hacc
      exact (ih.selector e hsel).term (hparts.selector e hsel) hacc
    | none =>
      simp only [hsel] at hacc
      exact Source.pieces_emit ih.source hsource hacc

/-- Expressions of a clause that are written as their emission is. -/
theorem pieces_clause {es : List Expr} (ih : ∀ e ∈ es, Inlines e) (hreg : ∀ e ∈ es, ∀ x ∈ e.subterms, x.Regular)
    {sc : Scope} {m : Mode} {beside : Bool} (hacc : ∀ e ∈ es, (e.emit sc m beside).term.Accepted) :
    (es.map fun e => (e.emit sc m beside).term.pieces) = inlineEach es sc m beside := by
  rw [inlineEach_eq_map]
  exact List.map_congr_left fun e he => (ih e he).term (hreg e he) (hacc e he)

/-- What a query becomes is the query with its values in it. -/
theorem Query.pieces_of {q : Query} (ih : q.All Inlines) (hreg : ∀ x ∈ q.subterms, x.Regular)
    (hown : (Expr.subquery q).Regular) {sc : Scope} (hacc : ∀ s ∈ (q.emit sc).slots, s.isAccepted) :
    (q.emit sc).frame.statement.pieces Slot.pieces = q.inline sc := by
  have hparts := Query.all_of_subterms hreg
  rw [Query.emit_eq, Select.slots_eq] at hacc
  simp only [List.mem_append, or_imp, forall_and, List.mem_flatMap, List.mem_map] at hacc
  obtain ⟨⟨⟨⟨hitems, hjoins⟩, hconditions⟩, hgroups⟩, horder⟩ := hacc
  have hjoin : (q.joins.flatMap fun j => verbatim " " ++ (j.emit (q.scope sc)).fragment.pieces Slot.pieces) =
      inlineJoins q.joins (q.scope sc) := by
    rw [inlineJoins_eq_flatMap]
    refine List.flatMap_congr fun j hj => ?_
    have hslots : ∀ s ∈ (j.emit (q.scope sc)).slots, s.isAccepted := fun s hs => hjoins s ⟨_, ⟨j, hj, rfl⟩, hs⟩
    have houter := (ih.joins j hj).1.term (hparts.joins j hj).1 fun s hs => hslots s (List.mem_append_left _ hs)
    have hinner := (ih.joins j hj).2.term (hparts.joins j hj).2 fun s hs => hslots s (List.mem_append_right _ hs)
    rw [← houter, ← hinner]
    simp [JoinOn.fragment, Join.emit, Term.pieces]
  have hfilter : (q.filters.map fun f =>
        (Term.slot (Slot.filter (f.command sc.table (some (q.tableName sc.table))))).pieces) =
      q.filters.map (Filter.inline sc.table (some (q.tableName sc.table))) := by
    refine List.map_congr_left fun f hf => ?_
    rw [← (hown f hf).pieces_slot]
    simp [Term.pieces, Term.fragment]
  have hkey : (q.orderBy.map fun k => (k.emit (q.scope sc)).fragment.pieces Slot.pieces) =
      inlineSortKeys q.orderBy (q.scope sc) := by
    rw [inlineSortKeys_eq_map]
    refine List.map_congr_left fun k hk => ?_
    rw [← (ih.orderBy k hk).term (hparts.orderBy k hk) fun s hs => horder s ⟨_, ⟨k, hk, rfl⟩, hs⟩]
    simp [SortTerm.fragment, SortKey.emit, Term.pieces]
  have hcondition := pieces_clause ih.conditions hparts.conditions
    fun e he s hs => hconditions s ⟨_, .inl ⟨e, he, rfl⟩, hs⟩
  have hgroup := pieces_clause ih.groupBy hparts.groupBy fun e he s hs => hgroups s ⟨_, ⟨e, he, rfl⟩, hs⟩
  rw [Select.pieces_eq, pieces_sourceFragment sc.table (by rw [Query.emit_eq]), Query.emit_eq, Query.inline_eq]
  simp only [List.flatMap_map, List.map_map, List.map_append, Function.comp_def, hjoin, hfilter, hkey, hcondition,
    hgroup, Query.pieces_emitItems ih hreg hitems]

/-! ## Expressions -/

/-- A single term has no arms. -/
theorem armPieces_ofTerm (t : Term Slot) (jsonText : Bool) (guards : List (Term Slot)) :
    armPieces ((Emitted.ofTerm t jsonText).tree.flattenUnder guards) = ([], t.pieces) := rfl

theorem isJsonText_of_isNull {e : Expr} (h : e.isNull) : e.isJsonText false = false := by
  unfold Expr.isNull at h
  split at h
  · rfl
  · cases h

theorem pieces_nullTest (t : Term Slot) (negated : Bool) :
    (Term.nullTest t negated).pieces = t.pieces ++ verbatim (if negated then " IS NOT NULL" else " IS NULL") := by
  simp [Term.pieces, Term.fragment]

theorem pieces_operation (left right : Term Slot) (op : Infix) :
    (Term.operation left op right).pieces = left.pieces ++ verbatim op.padded ++ right.pieces := by
  simp [Term.pieces, Term.fragment]

theorem binary_inlines {op : BinaryOp} {left right : Expr} (ihl : Inlines left) (ihr : Inlines right) :
    Inlines (.binary op left right) := by
  intro hreg sc m beside hacc guards
  have hl : (left.emit sc m.operand false).term.Accepted → (left.emit sc m.operand false).term.pieces =
      casePieces (left.inlineUnder sc m.operand false []) :=
    fun h => ihl.term (fun x hx => hreg x (by simp [Expr.subterms, hx])) h
  have hr : ∀ b, (right.emit sc m.operand b).term.Accepted → (right.emit sc m.operand b).term.pieces =
      casePieces (right.inlineUnder sc m.operand b []) :=
    fun b h => ihr.term (fun x hx => hreg x (by simp [Expr.subterms, hx])) h
  simp only [Expr.emit, Expr.inlineUnder] at hacc ⊢
  by_cases hright : op.isEquality && right.isNull
  · simp only [hright, if_true] at hacc ⊢
    have hleft := hl fun s hs => hacc s (by rw [Term.slots, slots_parenIf]; exact hs)
    rw [armPieces_ofTerm, pieces_nullTest, pieces_parenIf, hleft, nullTestPieces]
  · by_cases hnull : op.isEquality && left.isNull
    · simp only [hright, hnull, if_true] at hacc ⊢
      have hoperand := hr false fun s hs => hacc s (by
        simp only [Term.slots, slots_parenIf]
        exact hs)
      rw [isJsonText_of_isNull (Bool.and_eq_true _ _ ▸ hnull).2]
      simp only [Bool.false_eq_true, if_false]
      rw [armPieces_ofTerm, pieces_nullTest, pieces_parenIf, hoperand, nullTestPieces]
    · simp only [hright, hnull] at hacc ⊢
      have hleft := hl fun s hs => hacc s (by
        simp only [Term.slots, slots_parenIf, List.mem_append]
        exact .inl hs)
      have hoperand := hr _ fun s hs => hacc s (by
        simp only [Term.slots, slots_parenIf, List.mem_append]
        exact .inr hs)
      simp only [Bool.false_eq_true, if_false]
      rw [armPieces_ofTerm, pieces_operation, pieces_parenIf, pieces_parenIf, hleft, hoperand, Expr.jsonText_emit,
        operationPieces]
      split <;> rfl

/-- Expressions in a list of terms. -/
theorem pieces_emitEach {es : List Expr} (ih : ∀ e ∈ es, Inlines e) (hreg : ∀ x ∈ listSubterms es, x.Regular)
    {sc : Scope} {m : Mode} {beside : Bool} (hacc : ∀ s ∈ termSlots (emitEach es sc m beside), s.isAccepted) :
    (emitEach es sc m beside).map Term.pieces = inlineEach es sc m beside := by
  rw [emitEach_eq_map, termSlots_eq_flatMap, List.flatMap_map] at hacc
  rw [listSubterms_eq_flatMap] at hreg
  rw [emitEach_eq_map, List.map_map]
  exact pieces_clause ih (fun e he x hx => hreg x (List.mem_flatMap.2 ⟨e, he, hx⟩))
    fun e he s hs => hacc s (List.mem_flatMap.2 ⟨e, he, hs⟩)

theorem call_inlines {method : Method} {receiver : Option Expr} {arguments : List Expr}
    (ihr : ∀ e ∈ receiver, Inlines e) (iha : ∀ e ∈ arguments, Inlines e) :
    Inlines (.call method receiver arguments) := by
  intro hreg sc m beside hacc guards
  obtain ⟨e, hcall⟩ : ∃ e, Expr.callOf method receiver arguments = .ok e := hreg _ (Expr.mem_subterms_self _)
  obtain ⟨hreceiver, haccepts⟩ := accepts_of_callOf hcall
  have hargs : ∀ b, (∀ s ∈ termSlots (emitEach arguments sc m.operand b), s.isAccepted) →
      (emitEach arguments sc m.operand b).map Term.pieces = inlineEach arguments sc m.operand b :=
    fun b h => pieces_emitEach iha (fun x hx => hreg x (by simp [Expr.subterms, hx])) h
  have hlength : ∀ b, (inlineEach arguments sc m.operand b).length = arguments.length := by
    intro b
    rw [inlineEach_eq_map, List.length_map]
  simp only [Expr.emit, Expr.inlineUnder] at hacc ⊢
  by_cases hconcat : method = .concat
  · simp only [hconcat, if_true] at hacc ⊢
    have hlist := hargs false fun s hs => hacc s (by simpa [Term.slots, termSlots] using hs)
    rw [armPieces_ofTerm, pieces_call, List.map_cons, List.map_nil, pieces_list, hlist]
    simp [Method.layout, Method.inline, Method.comparesWithReceiver]
  · have hsome : receiver.isSome := hreceiver (by simpa [Method.hasReceiver] using hconcat)
    obtain ⟨r, rfl⟩ := Option.isSome_iff_exists.1 hsome
    simp only [hconcat, if_false, emitOption, Expr.jsonText_emit] at hacc ⊢
    have hr : (r.emit sc m.operand false).term.pieces = casePieces (r.inlineUnder sc m.operand false []) :=
      (ihr r rfl).term (fun x hx => hreg x (by simp [Expr.subterms, optionSubterms, hx]))
        fun s hs => hacc s (by simp [Term.slots, termSlots, hs])
    have hlist := hargs (method.comparesWithReceiver && r.isJsonText false)
      fun s hs => hacc s (by simp [Term.slots, termSlots, hs])
    rw [armPieces_ofTerm, pieces_call, List.map_cons, hlist, hr, Method.pieces_layout hconcat (hlength _) haccepts]
    rfl

/-- **Emission writes each value where it occurs.** -/
theorem Expr.inlines (e : Expr) : Inlines e := by
  induction e using Expr.induction with
  | source s ih =>
    intro hreg sc m beside hacc guards
    simp only [Expr.emit] at hacc ⊢
    rw [Source.tree_emit] at hacc ⊢
    rw [Expr.inlineUnder, ← Source.pieces_emit ih (fun x hx => hreg x (by simp [Expr.subterms, hx])) hacc]
    rfl
  | subquery q ih =>
    intro hreg sc m beside hacc guards
    have hq := Query.pieces_of ih (fun x hx => hreg x (by simp [Expr.subterms, hx]))
      (hreg _ (Expr.mem_subterms_self _)) hacc
    rw [Expr.emit, armPieces_ofTerm, Expr.inlineUnder, ← hq, Term.pieces, Term.fragment, pieces_parenthesized]
  | binary op left right ihl ihr => exact binary_inlines ihl ihr
  | conditional test ifTrue ifFalse iht iha ihb =>
    intro hreg sc m beside hacc guards
    obtain ⟨htest, htrue, hfalse⟩ := hacc
    have ht := iht.term (fun x hx => hreg x (by simp [Expr.subterms, hx])) htest
    have ha := iha (fun x hx => hreg x (by simp [Expr.subterms, hx])) sc m.inCase false htrue
      (guards ++ [(test.emit sc m.inCase false).term])
    have hb := ihb (fun x hx => hreg x (by simp [Expr.subterms, hx])) sc m.inCase false hfalse guards
    rw [List.map_append, List.map_cons, List.map_nil, ht] at ha
    rw [Expr.inlineUnder, ← ha, ← hb]
    simp only [Expr.emit, Decision.flattenUnder, armPieces, List.flatMap_append, List.flatMap_cons, pieces_arm,
      List.map_append, List.map_cons, List.map_nil, ht, List.append_assoc]
  | constant value =>
    intro hreg sc m beside hacc guards
    simp [Expr.emit, armPieces_ofTerm, Expr.inlineUnder, Term.pieces, Term.fragment, Slot.pieces, boundAs]
  | member root path type ih =>
    intro hreg sc m beside hacc guards
    simp only [Expr.emit, Expr.inlineUnder] at hacc ⊢
    by_cases hpath : path.isEmpty
    · simp only [hpath, if_true] at hacc
      exact absurd (hacc (.reject .emptyPath) (by simp [Term.slots])) (by simp [Slot.isAccepted])
    · simp only [hpath] at hacc ⊢
      obtain ⟨hroot, hmember⟩ := pieces_memberTerm hacc
      have hpieces : (emitRoot root sc m.forMemberRoot beside).pieces = inlineRoot root sc m.forMemberRoot beside := by
        cases root with
        | none => exact pieces_table _
        | some s =>
          exact Source.pieces_emit (ih s rfl)
            (fun x hx => hreg x (by simp [Expr.subterms, rootSubterms, hx])) hroot
      rw [← hpieces, ← hmember]
      rfl
  | call method receiver arguments ihr iha => exact call_inlines ihr iha
  | project items ih =>
    intro hreg sc m beside hacc guards
    simp only [Expr.emit, Expr.inlineUnder] at hacc ⊢
    by_cases hitems : items.isEmpty
    · simp only [hitems, if_true] at hacc
      exact absurd (hacc (.reject .emptyProjection) (by simp [Term.slots])) (by simp [Slot.isAccepted])
    · simp only [hitems] at hacc ⊢
      have hlist := pieces_emitEach ih (fun x hx => hreg x (by simp [Expr.subterms, hx])) hacc
      rw [if_neg Bool.false_ne_true, armPieces_ofTerm, pieces_list, hlist]
  | unary op operand ih =>
    intro hreg sc m beside hacc guards
    have hoperand : ∀ m, (operand.emit sc m beside).term.Accepted → (operand.emit sc m beside).term.pieces =
        casePieces (operand.inlineUnder sc m beside []) :=
      fun m h => ih.term (fun x hx => hreg x (by simp [Expr.subterms, hx])) h
    cases op with
    | not =>
      have hterm := hoperand m.operand hacc
      simp only [Expr.emit, Expr.inlineUnder, armPieces_ofTerm, ← hterm]
      simp [Term.pieces, Term.fragment]
    | convert | typeAs =>
      have hterm := hoperand m hacc
      simp only [Expr.emit, Expr.inlineUnder, armPieces_ofTerm, ← hterm]

/-- What a query becomes, with the values of its slots in their places, is the
query with its values in it. -/
theorem Query.pieces_emit {q : Query} (hreg : ∀ x ∈ (Expr.subquery q).subterms, x.Regular) {sc : Scope}
    (hacc : ∀ s ∈ (q.emit sc).slots, s.isAccepted) :
    (q.emit sc).frame.statement.pieces Slot.pieces = q.inline sc :=
  Query.pieces_of (.intro Expr.inlines q) (fun x hx => hreg x (by simp [Expr.subterms, hx]))
    (hreg _ (Expr.mem_subterms_self _)) hacc

end ParamQuery
