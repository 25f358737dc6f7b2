/-
The slots of an emission, construct by construct and in the order in which they
are visited. What a compilation registers and why it is refused are matters of
these slots alone.

A conditional is visited arm by arm, each arm with all the tests that guard it
(`Sql.Decision.slotsUnder`).
-/
import ParamQuery.Proofs.EmitInline

namespace ParamQuery

open Sql

/-! ## Sources and queries -/

theorem slots_columns (columns : List (String × String)) (f : String × String → Term Slot)
    (h : ∀ c, (f c).slots = []) : termSlots (columns.map f) = [] := by
  rw [termSlots_eq_flatMap, List.flatMap_map]
  exact List.flatMap_eq_nil_iff.2 fun c _ => h c

theorem slots_sourceTerm (table : String) (columns : List (String × String)) :
    (sourceTerm table columns).slots = [] := by
  unfold sourceTerm
  split
  · rfl
  · exact slots_columns _ _ fun _ => rfl

theorem slots_groupJoinTerm (table typeName : String) (columns : List (String × String))
    (inner outer : Term Slot) :
    (groupJoinTerm table typeName columns inner outer).slots = inner.slots ++ outer.slots := by
  have hcolumns := slots_columns columns
    (fun c => .labelled (.column (.table table) c.2 []) (typeName ++ "." ++ c.1)) fun _ => rfl
  simp only [groupJoinTerm, Term.slots, termSlots, List.append_nil]
  rw [hcolumns, List.nil_append]

/-- The scope of the inner key of a group join. -/
def Source.copyScope (s : Source) (sc : Scope) : Scope :=
  { sc with qualifier := some ("temp_" ++ sc.tableName s.table) }

/-- The number of rows of a group stands behind the columns of its source. -/
theorem Source.term_emit_group {s : Source} {g : GroupJoin} (h : s.groupJoin = some g) (sc : Scope) (m : Mode)
    (beside : Bool) : (s.emit sc m beside).term =
      groupJoinTerm (sc.tableName s.table) s.typeName (sc.sourceColumns s.table s.members)
        (g.inner.emit (s.copyScope sc) {} beside).term (g.outer.emit sc {} (g.inner.isJsonText beside)).term := by
  obtain ⟨typeName, members, own, groupJoin⟩ := s
  obtain ⟨outer, inner⟩ := g
  obtain rfl : groupJoin = some ⟨outer, inner⟩ := h
  rw [← Expr.jsonText_emit inner (Source.copyScope ⟨typeName, members, own, some ⟨outer, inner⟩⟩ sc) {} beside]
  rfl

/-- A source asks for what the keys of its group join ask for, the inner one
first. -/
theorem Source.slots_emit (s : Source) (sc : Scope) (m : Mode) (beside : Bool) :
    (s.emit sc m beside).term.slots = s.groupJoin.toList.flatMap fun g =>
      (g.inner.emit (s.copyScope sc) {} beside).term.slots ++
        (g.outer.emit sc {} (g.inner.isJsonText beside)).term.slots := by
  cases hgroup : s.groupJoin with
  | none =>
    obtain ⟨typeName, members, own, groupJoin⟩ := s
    obtain rfl : groupJoin = none := hgroup
    simp only [Source.emit]
    split
    · rfl
    · exact slots_sourceTerm _ _
  | some g =>
    rw [Source.term_emit_group hgroup, slots_groupJoinTerm, Option.toList_some, List.flatMap_singleton]

/-- The slots of what stands in front of a member. -/
theorem slots_emitRoot (root : Option Source) (sc : Scope) (m : Mode) (beside : Bool) :
    (emitRoot root sc m beside).slots = root.toList.flatMap fun s => (s.emit sc m beside).term.slots := by
  cases root with
  | none => rfl
  | some s => simp [emitRoot_some]

theorem slots_emitEach (es : List Expr) (sc : Scope) (m : Mode) (beside : Bool) :
    termSlots (emitEach es sc m beside) = es.flatMap fun e => (e.emit sc m beside).term.slots := by
  rw [emitEach_eq_map, termSlots_eq_flatMap, List.flatMap_map]

/-- A query is visited clause by clause, its filters behind its conditions. -/
theorem Query.slots_emit (q : Query) (sc : Scope) :
    (q.emit sc).slots = (q.emitItems (q.scope sc)).slots ++
      (q.joins.flatMap fun j => (j.outer.emit (q.scope sc) {} false).term.slots ++
        (j.inner.emit (q.scope sc) {} false).term.slots) ++
      ((q.conditions.flatMap fun e => (e.emit (q.scope sc) {} false).term.slots) ++
        q.filters.map fun f => Slot.filter (f.command sc.table (some (q.tableName sc.table)))) ++
      (q.groupBy.flatMap fun e => (e.emit (q.scope sc) {} false).term.slots) ++
      q.orderBy.flatMap fun k => (k.key.emit (q.scope sc) {} false).term.slots := by
  rw [Select.slots_eq, Query.emit_eq]
  simp only [List.flatMap_map, List.flatMap_append]
  congr 4
  exact (List.map_eq_flatMap ..).symm

/-! ## Conditionals -/

/-- The slots of a tree below guards whose slots are `guards`: those of its arms,
each behind the guards around it, and those of the value when no arm applies. -/
def Sql.Decision.slotsUnder (guards : List Slot) : Decision (Term Slot) → List Slot × List Slot
  | .leaf t => ([], t.slots)
  | .test condition ifTrue ifFalse =>
    let inner := guards ++ condition.slots
    let yes := ifTrue.slotsUnder inner
    let no := ifFalse.slotsUnder guards
    (yes.1 ++ inner ++ yes.2 ++ no.1, no.2)

theorem Sql.Decision.slots_flattenUnder (d : Decision (Term Slot)) (guards : List (Term Slot)) :
    ((d.flattenUnder guards).1.flatMap fun arm => arm.1.flatMap Term.slots ++ arm.2.slots,
        (d.flattenUnder guards).2.slots) =
      d.slotsUnder (guards.flatMap Term.slots) := by
  induction d generalizing guards with
  | leaf t => rfl
  | test condition ifTrue ifFalse ihT ihF =>
    have hinner : (guards ++ [condition]).flatMap Term.slots = guards.flatMap Term.slots ++ condition.slots := by
      simp
    have hT := ihT (guards ++ [condition])
    rw [hinner] at hT
    simp only [Decision.flattenUnder, Decision.slotsUnder, ← hT, ← ihF guards, List.flatMap_append,
      List.flatMap_cons, hinner, List.append_assoc]

/-- A tree is visited arm by arm. -/
theorem slots_caseTerm (d : Decision (Term Slot)) :
    (caseTerm d).slots = (d.slotsUnder []).1 ++ (d.slotsUnder []).2 := by
  cases d with
  | leaf t => rfl
  | test condition ifTrue ifFalse =>
    have hflat := Decision.slots_flattenUnder (.test condition ifTrue ifFalse) []
    rw [List.flatMap_nil] at hflat
    rw [← hflat]
    simp only [caseTerm, Term.slots, armSlots_eq_flatMap, List.flatMap_map, Decision.flatten, Arm.slots]

/-- Every part of a conditional is visited. -/
theorem mem_slots_caseTerm {s : Slot} {condition : Term Slot} {ifTrue ifFalse : Decision (Term Slot)} :
    s ∈ (caseTerm (.test condition ifTrue ifFalse)).slots ↔
      s ∈ condition.slots ∨ s ∈ (caseTerm ifTrue).slots ∨ s ∈ (caseTerm ifFalse).slots := by
  -- below guards, a tree with arms also visits the guards
  have hunder : ∀ (d : Decision (Term Slot)) (guards : List Slot),
      (s ∈ (d.slotsUnder guards).1 ∨ s ∈ (d.slotsUnder guards).2 ∨ s ∈ guards) ↔
        (s ∈ (d.slotsUnder []).1 ∨ s ∈ (d.slotsUnder []).2) ∨ s ∈ guards := by
    intro d
    induction d with
    | leaf t => simp [Decision.slotsUnder]
    | test condition ifTrue ifFalse ihT ihF =>
      intro guards
      have hT := ihT (guards ++ condition.slots)
      have hT' := ihT condition.slots
      have hF := ihF guards
      clear ihT ihF
      simp only [Decision.slotsUnder, List.mem_append, List.nil_append] at hT hT' hF ⊢
      grind
  have hT := hunder ifTrue condition.slots
  simp only [slots_caseTerm, Decision.slotsUnder, List.nil_append, List.mem_append]
  grind

/-! ## Expressions -/

/-- Why a member with a name is refused: members are resolved strictly, the
source of this one is the described table, and no column is found for its first
segment. The lengths at the end of its path are left out of the message. -/
def Table.refusal? (table : Table) (strict : Bool) (own : Option String) (path : List String) : Option CompileError :=
  if strict ∧ (∀ t ∈ own, t = table.name) ∧ table.columnByMember? (path.headD "") = none then
    some (.unresolvedMember (path.take (path.length - lengthDepth path)) table.name)
  else none

theorem Scope.isForeign_eq_false_iff {sc : Scope} {own : Option String} :
    sc.isForeign own = false ↔ ∀ t ∈ own, t = sc.table.name := by
  cases own <;> simp [Scope.isForeign]

/-- A path without the lengths at its end starts with the same segment. -/
theorem take_lengthDepth (base : String) (steps : List String) :
    ∃ rest, (base :: steps).take ((base :: steps).length - lengthDepth (base :: steps)) = base :: rest := by
  have hdepth : lengthDepth (base :: steps) ≤ steps.length := by
    have h := List.Sublist.length_le (List.takeWhile_sublist (· == "Length") (l := steps.reverse))
    rwa [List.length_reverse] at h
  rw [List.length_cons, Nat.succ_sub hdepth]
  exact ⟨_, List.take_succ_cons⟩

/-- A member asks for what stands in front of it and may then be refused. -/
theorem Expr.slots_member (root : Option Source) (path : List String) (type : ValueType) (sc : Scope) (m : Mode)
    (beside : Bool) :
    ((Expr.member root path type).emit sc m beside).term.slots =
      if path = [] then [.reject .emptyPath]
      else (root.toList.flatMap fun s => (s.emit sc m.forMemberRoot beside).term.slots) ++
        (sc.table.refusal? sc.strict (root.bind (·.table)) path).toList.map .reject := by
  cases path with
  | nil => rfl
  | cons base steps =>
    obtain ⟨rest, hrest⟩ := take_lengthDepth base steps
    rw [if_neg (List.cons_ne_nil _ _), ← slots_emitRoot]
    simp only [Expr.emit, List.isEmpty_cons, Bool.false_eq_true, if_false]
    rw [slots_memberTerm, hrest]
    simp only [columnTerm, Table.refusal?, List.headD_cons, hrest, ← Scope.isForeign_eq_false_iff, Scope.column?]
    cases sc.isForeign (root.bind (·.table)) with
    | true => simp [Term.slots]
    | false =>
      cases sc.table.columnByMember? base with
      | some c => simp [Term.slots]
      | none => cases sc.strict <;> simp [Term.slots, termSlots]

/-- An operation visits its operands from left to right, and a null test the
operand that is not null. -/
theorem Expr.slots_binary (op : BinaryOp) (left right : Expr) (sc : Scope) (m : Mode) (beside : Bool) :
    ((Expr.binary op left right).emit sc m beside).term.slots =
      if op.isEquality && right.isNull then (left.emit sc m.operand false).term.slots
      else if op.isEquality && left.isNull then (right.emit sc m.operand false).term.slots
      else (left.emit sc m.operand false).term.slots ++
        (right.emit sc m.operand (left.isJsonText false)).term.slots := by
  simp only [Expr.emit, Expr.jsonText_emit]
  split
  · exact slots_parenIf _ _
  · split
    · exact slots_parenIf _ _
    · simp only [Emitted.term, Emitted.ofTerm, caseTerm, Term.slots, slots_parenIf]

/-- A call visits its receiver and then its arguments; one without a receiver
visits the arguments only. -/
theorem Expr.slots_call (method : Method) (receiver : Option Expr) (arguments : List Expr) (sc : Scope) (m : Mode)
    (beside : Bool) :
    ((Expr.call method receiver arguments).emit sc m beside).term.slots =
      (if method = .concat then []
        else receiver.toList.flatMap fun e => (e.emit sc m.operand false).term.slots) ++
      arguments.flatMap fun e =>
        (e.emit sc m.operand (method.comparesWithReceiver && optionIsJsonText receiver)).term.slots := by
  simp only [Expr.emit]
  split
  · rename_i hconcat
    have hbeside : (method.comparesWithReceiver && optionIsJsonText receiver) = false := by
      simp [hconcat, Method.comparesWithReceiver]
    rw [hbeside, List.nil_append, ← slots_emitEach]
    simp [Emitted.term, Emitted.ofTerm, caseTerm, Term.slots, termSlots]
  · cases receiver with
    | none =>
      simp only [emitOption, optionIsJsonText, Bool.and_false, ← slots_emitEach]
      rfl
    | some r =>
      simp only [emitOption, optionIsJsonText, Expr.jsonText_emit, Option.toList_some, List.flatMap_singleton]
      rw [← slots_emitEach]
      rfl

theorem Expr.slots_project (items : List Expr) (sc : Scope) (m : Mode) (beside : Bool) :
    ((Expr.project items).emit sc m beside).term.slots =
      if items = [] then [.reject .emptyProjection]
      else items.flatMap fun e => (e.emit sc m.operand.forLabels false).term.slots := by
  cases items with
  | nil => rfl
  | cons e rest =>
    rw [if_neg (List.cons_ne_nil _ _), ← slots_emitEach]
    rfl

end ParamQuery
