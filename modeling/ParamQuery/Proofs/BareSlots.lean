/-
The slots of a term that stand in no parentheses. What is written for an
expression has filters only inside of a statement, which is in parentheses; so
none of them is bare (`Expr.bare_emit`). The bare filters of a statement are its
own (`Query.bare_emit`).
-/
import ParamQuery.Proofs.BuiltTerms

namespace ParamQuery.Sql

variable {β γ : Type}

mutual
/-- The slots of a term that stand in no parentheses. -/
def Term.bare : Term β → List β
  | .slot b => [b]
  | .column qualifier _ _ => qualifier.bare
  | .labelled t _ => t.bare
  | .list items => bareEach items
  | .operation left _ right => left.bare ++ right.bare
  | .nullTest t _ => t.bare
  | .call _ arguments => bareEach arguments
  | .caseWhen arms otherwise => bareArms arms ++ otherwise.bare
  | .table _ | .allColumns _ | .countAll | .negation _ | .paren _ | .lengthOf _ | .groupCount _ _ _ _
  | .subquery _ => []
/-- The bare slots of each of some terms. -/
def bareEach : List (Term β) → List β
  | [] => []
  | t :: ts => t.bare ++ bareEach ts
/-- The bare slots of each of some arms. -/
def bareArms : List (Arm β) → List β
  | [] => []
  | ⟨guards, value⟩ :: arms => bareEach guards ++ value.bare ++ bareArms arms
end

/-- The bare slots of an arm: those of its guards and of its value. -/
def Arm.bare (a : Arm β) : List β := a.guards.flatMap Term.bare ++ a.value.bare

theorem bareEach_eq_flatMap (ts : List (Term β)) : bareEach ts = ts.flatMap Term.bare := by
  induction ts with
  | nil => rfl
  | cons t ts ih => simp [bareEach, ih]

theorem bareArms_eq_flatMap (arms : List (Arm β)) : bareArms arms = arms.flatMap Arm.bare := by
  induction arms with
  | nil => rfl
  | cons a arms ih =>
    obtain ⟨guards, value⟩ := a
    simp [bareArms, Arm.bare, bareEach_eq_flatMap, ih]

theorem Term.bare_map (f : β → γ) (t : Term β) : (t.map f).bare = t.bare.map f := by
  induction t using Term.induction with
  | slot b => rfl
  | table name => rfl
  | allColumns table => rfl
  | column qualifier name steps ih => simpa [Term.bare] using ih
  | countAll => rfl
  | labelled t label ih => simpa [Term.bare] using ih
  | list items ih =>
    rw [Term.map_list, Term.bare, Term.bare, bareEach_eq_flatMap, bareEach_eq_flatMap, List.flatMap_map,
      List.map_flatMap]
    exact List.flatMap_congr ih
  | operation left op right ihl ihr => simp [Term.bare, ihl, ihr]
  | nullTest t negated ih => simpa [Term.bare] using ih
  | negation t ih => rfl
  | paren t ih => rfl
  | lengthOf t ih => rfl
  | call template arguments ih =>
    rw [Term.map_call, Term.bare, Term.bare, bareEach_eq_flatMap, bareEach_eq_flatMap, List.flatMap_map,
      List.map_flatMap]
    exact List.flatMap_congr ih
  | caseWhen arms otherwise iha iho =>
    have harms : (arms.map (Arm.map f)).flatMap Arm.bare = (arms.flatMap Arm.bare).map f := by
      rw [List.flatMap_map, List.map_flatMap]
      refine List.flatMap_congr fun a ha => ?_
      simp only [Arm.bare, Arm.map, List.flatMap_map, List.map_append, List.map_flatMap, (iha a ha).2]
      rw [List.flatMap_congr (iha a ha).1]
    rw [Term.map_caseWhen, Term.bare, Term.bare, bareArms_eq_flatMap, bareArms_eq_flatMap, harms, iho, List.map_append]
  | groupCount table copy inner outer ihi iho => rfl
  | subquery s ih => simp [Term.bare]

theorem Term.bare_subset_slots (t : Term β) : t.bare ⊆ t.slots := by
  have heach : ∀ {ts : List (Term β)}, (∀ t ∈ ts, t.bare ⊆ t.slots) → ts.flatMap Term.bare ⊆ ts.flatMap Term.slots := by
    intro ts h b hb
    obtain ⟨t, ht, hb⟩ := List.mem_flatMap.1 hb
    exact List.mem_flatMap.2 ⟨t, ht, h t ht hb⟩
  induction t using Term.induction with
  | slot b => exact List.Subset.refl _
  | column qualifier name steps ih => exact ih
  | labelled t label ih => exact ih
  | list items ih =>
    rw [Term.bare, Term.slots, bareEach_eq_flatMap, termSlots_eq_flatMap]
    exact heach ih
  | operation left op right ihl ihr =>
    exact List.append_subset.2 ⟨List.subset_append_of_subset_left _ ihl, List.subset_append_of_subset_right _ ihr⟩
  | nullTest t negated ih => exact ih
  | call template arguments ih =>
    rw [Term.bare, Term.slots, bareEach_eq_flatMap, termSlots_eq_flatMap]
    exact heach ih
  | caseWhen arms otherwise iha iho =>
    rw [Term.bare, Term.slots, bareArms_eq_flatMap, armSlots_eq_flatMap]
    refine List.append_subset.2 ⟨fun b hb => ?_, List.subset_append_of_subset_right _ iho⟩
    obtain ⟨a, ha, hb⟩ := List.mem_flatMap.1 hb
    have harm : a.bare ⊆ a.slots := List.append_subset.2
      ⟨List.subset_append_of_subset_left _ (heach (iha a ha).1), List.subset_append_of_subset_right _ (iha a ha).2⟩
    exact List.mem_append_left _ (List.mem_flatMap.2 ⟨a, ha, harm hb⟩)
  | table | allColumns | countAll | negation | paren | lengthOf | groupCount | subquery => exact List.nil_subset _

theorem Select.All.imp₂ {P Q R : Term β → Prop} {s : Select β} (hP : s.All P) (hQ : s.All Q)
    (h : ∀ t, P t → Q t → R t) : s.All R :=
  ⟨h _ hP.items hQ.items,
    fun j hj => ⟨h _ (hP.joins j hj).1 (hQ.joins j hj).1, h _ (hP.joins j hj).2 (hQ.joins j hj).2⟩,
    fun t ht => h _ (hP.conditions t ht) (hQ.conditions t ht), fun t ht => h _ (hP.groupBy t ht) (hQ.groupBy t ht),
    fun k hk => h _ (hP.orderBy k hk) (hQ.orderBy k hk)⟩

/-- The slots of every term of a statement are slots of the statement. -/
theorem Select.all_slots (s : Select β) : s.All fun t => t.slots ⊆ s.slots := by
  rw [Select.slots_eq]
  refine ⟨fun b hb => ?_, fun j hj => ⟨fun b hb => ?_, fun b hb => ?_⟩, fun t ht b hb => ?_, fun t ht b hb => ?_,
    fun k hk b hb => ?_⟩
  all_goals simp only [List.mem_append, List.mem_flatMap, JoinOn.slots]
  · simp [hb]
  · exact .inl (.inl (.inl (.inr ⟨j, hj, .inl hb⟩)))
  · exact .inl (.inl (.inl (.inr ⟨j, hj, .inr hb⟩)))
  · exact .inl (.inl (.inr ⟨t, ht, hb⟩))
  · exact .inl (.inr ⟨t, ht, hb⟩)
  · exact .inr ⟨k, hk, hb⟩

/-- What is known of the image of every term of a statement. -/
theorem Select.All.of_map {P : Term γ → Prop} {f : β → γ} {s : Select β} (h : (s.map f).All P) :
    s.All fun t => P (t.map f) := by
  rw [Select.map_eq] at h
  exact ⟨h.items, fun j hj => h.joins _ (List.mem_map.2 ⟨j, hj, rfl⟩),
    fun t ht => h.conditions _ (List.mem_map.2 ⟨t, ht, rfl⟩), fun t ht => h.groupBy _ (List.mem_map.2 ⟨t, ht, rfl⟩),
    fun k hk => h.orderBy _ (List.mem_map.2 ⟨k, hk, rfl⟩)⟩

end ParamQuery.Sql

namespace ParamQuery

open Sql

/-! ## Emission -/

/-- Whether a slot is a whole filter. -/
def Slot.isFilter : Slot → Bool
  | .filter _ => true
  | _ => false

/-- None of the slots outside of parentheses is a filter. -/
def Unfiltered (t : Term Slot) : Prop := ∀ b ∈ t.bare, b.isFilter = false

namespace Unfiltered

theorem of_bare_eq_nil {t : Term Slot} (h : t.bare = []) : Unfiltered t := by
  intro b hb
  rw [h] at hb
  cases hb

theorem slot {b : Slot} (h : b.isFilter = false) : Unfiltered (.slot b) := by
  intro c hc
  rw [Term.bare, List.mem_singleton] at hc
  exact hc ▸ h

theorem list {ts : List (Term Slot)} (h : ∀ t ∈ ts, Unfiltered t) : Unfiltered (.list ts) := by
  intro b hb
  rw [Term.bare, bareEach_eq_flatMap] at hb
  obtain ⟨t, ht, hb⟩ := List.mem_flatMap.1 hb
  exact h t ht b hb

theorem call (template : Template) {ts : List (Term Slot)} (h : ∀ t ∈ ts, Unfiltered t) :
    Unfiltered (.call template ts) := list h

theorem operation (op : Infix) {left right : Term Slot} (hl : Unfiltered left) (hr : Unfiltered right) :
    Unfiltered (.operation left op right) :=
  fun b hb => (List.mem_append.1 hb).elim (hl b) (hr b)

theorem parenIf {t : Term Slot} (h : Unfiltered t) (wrap : Bool) : Unfiltered (parenIf wrap t) := by
  cases wrap
  · exact h
  · exact of_bare_eq_nil rfl

theorem caseWhen {arms : List (Arm Slot)} {otherwise : Term Slot} (hg : ∀ a ∈ arms, ∀ t ∈ a.guards, Unfiltered t)
    (hv : ∀ a ∈ arms, Unfiltered a.value) (ho : Unfiltered otherwise) : Unfiltered (.caseWhen arms otherwise) := by
  intro b hb
  rw [Term.bare, bareArms_eq_flatMap, List.mem_append] at hb
  rcases hb with hb | hb
  · obtain ⟨a, ha, hb⟩ := List.mem_flatMap.1 hb
    rcases List.mem_append.1 hb with hb | hb
    · obtain ⟨t, ht, hb⟩ := List.mem_flatMap.1 hb
      exact hg a ha t ht b hb
    · exact hv a ha b hb
  · exact ho b hb

theorem caseTerm {d : Decision (Term Slot)} (h : d.All Unfiltered) : Unfiltered (caseTerm d) := by
  cases d with
  | leaf t => exact h
  | test condition ifTrue ifFalse =>
    obtain ⟨harms, hvalue⟩ := h.flattenUnder (List.forall_mem_nil _)
    refine caseWhen (fun a ha => ?_) (fun a ha => ?_) hvalue
    · obtain ⟨arm, harm, rfl⟩ := List.mem_map.1 ha
      exact (harms arm harm).1
    · obtain ⟨arm, harm, rfl⟩ := List.mem_map.1 ha
      exact (harms arm harm).2

theorem memberTerm {sc : Scope} {own : Option String} {qualifier : Term Slot} (hq : Unfiltered qualifier)
    (path : List String) (m : Mode) : (memberTerm sc own qualifier path m).tree.All Unfiltered := by
  have hcolumn : ∀ path, Unfiltered (columnTerm sc own qualifier path) := by
    intro path
    unfold columnTerm
    split
    · exact slot rfl
    · split
      · exact hq
      · split
        · refine list fun t ht => ?_
          simp only [List.mem_cons, List.not_mem_nil, or_false] at ht
          rcases ht with rfl | rfl
          · exact hq
          · exact slot rfl
        · exact hq
  have hlengths : ∀ n {t : Term Slot}, Unfiltered t → Unfiltered (lengths n t) := by
    intro n t ht
    cases n with
    | zero => exact ht
    | succ n => exact of_bare_eq_nil rfl
  have hlabel : ∀ {t : Term Slot}, Unfiltered t → Unfiltered (labelIf m path t) := by
    intro t ht
    unfold labelIf
    split
    · exact ht
    · exact ht
  exact hlabel (hlengths _ (hcolumn _))

/-- A source has columns and statements that count. -/
theorem source (s : Source) (sc : Scope) (m : Mode) (beside : Bool) : (s.emit sc m beside).tree.All Unfiltered := by
  obtain ⟨typeName, members, own, groupJoin⟩ := s
  cases groupJoin with
  | none =>
    simp only [Source.emit]
    split
    · exact of_bare_eq_nil rfl
    · show Unfiltered (sourceTerm _ _)
      unfold sourceTerm
      split
      · exact of_bare_eq_nil rfl
      · refine list fun t ht => ?_
        obtain ⟨c, -, rfl⟩ := List.mem_map.1 ht
        exact of_bare_eq_nil rfl
  | some g =>
    obtain ⟨outer, inner⟩ := g
    show Unfiltered (groupJoinTerm _ _ _ _ _)
    refine list fun t ht => ?_
    simp only [List.mem_cons, List.not_mem_nil, or_false] at ht
    rcases ht with rfl | rfl
    · refine list fun t ht => ?_
      obtain ⟨c, -, rfl⟩ := List.mem_map.1 ht
      exact of_bare_eq_nil rfl
    · exact of_bare_eq_nil rfl

end Unfiltered

/-- **Outside of parentheses an expression has no filter.** -/
theorem Expr.bare_emit (e : Expr) (sc : Scope) (m : Mode) (beside : Bool) :
    (e.emit sc m beside).tree.All Unfiltered := by
  have heach : ∀ {es : List Expr}, (∀ e ∈ es, ∀ sc m beside, (Expr.emit e sc m beside).tree.All Unfiltered) →
      ∀ sc m beside, ∀ t ∈ emitEach es sc m beside, Unfiltered t := by
    intro es ih sc m beside t ht
    rw [emitEach_eq_map] at ht
    obtain ⟨e, he, rfl⟩ := List.mem_map.1 ht
    exact .caseTerm (ih e he _ _ _)
  induction e using Expr.induction generalizing sc m beside with
  | source s _ => exact Unfiltered.source s sc m beside
  | subquery q _ => exact .of_bare_eq_nil rfl
  | binary op left right ihl ihr =>
    have hl := fun m beside => Unfiltered.caseTerm (ihl sc m beside)
    have hr := fun m beside => Unfiltered.caseTerm (ihr sc m beside)
    simp only [Expr.emit]
    split
    · exact (hl _ _).parenIf _
    · split
      · exact (hr _ _).parenIf _
      · exact .operation _ ((hl _ _).parenIf _) ((hr _ _).parenIf _)
  | conditional test ifTrue ifFalse iht iha ihb => exact ⟨.caseTerm (iht _ _ _), iha _ _ _, ihb _ _ _⟩
  | constant value => exact .slot rfl
  | member root path type _ =>
    simp only [Expr.emit]
    split
    · exact .slot rfl
    · refine .memberTerm ?_ _ _
      cases root with
      | none => exact .of_bare_eq_nil rfl
      | some s => exact .caseTerm (Unfiltered.source s _ _ _)
  | call method receiver arguments ihr iha =>
    have hargs := heach iha
    simp only [Expr.emit]
    split
    · refine .call _ fun t ht => ?_
      rw [List.mem_singleton.1 ht]
      exact .list (hargs _ _ _)
    · cases receiver with
      | none => exact .call _ (hargs _ _ _)
      | some r =>
        refine .call _ fun t ht => ?_
        rcases List.mem_cons.1 ht with rfl | ht
        · exact .caseTerm (ihr r rfl _ _ _)
        · exact hargs _ _ _ t ht
  | project items ih =>
    simp only [Expr.emit]
    split
    · exact .slot rfl
    · exact .list (heach ih _ _ _)
  | unary op operand ih =>
    cases op with
    | not => exact .of_bare_eq_nil rfl
    | convert | typeAs => exact .caseTerm (ih _ _ _)

/-- The filters outside of parentheses are those of the statement itself. -/
theorem Query.bare_emit (q : Query) (sc : Scope) :
    (q.emit sc).All fun t => ∀ b ∈ t.bare, b.isFilter = false ∨
      ∃ f ∈ q.filters, b = .filter (f.command sc.table (some (q.tableName sc.table))) := by
  have hexpr : ∀ (e : Expr) (sc' : Scope), ∀ b ∈ (e.emit sc' {} false).term.bare, b.isFilter = false ∨
      ∃ f ∈ q.filters, b = .filter (f.command sc.table (some (q.tableName sc.table))) :=
    fun e sc' b hb => .inl (Unfiltered.caseTerm (e.bare_emit sc' {} false) b hb)
  rw [Query.emit_eq]
  refine ⟨?_, fun j hj => ?_, fun t ht => ?_, fun t ht => ?_, fun k hk => ?_⟩
  · unfold Query.emitItems
    split
    · exact fun b hb => absurd hb List.not_mem_nil
    · split
      · exact hexpr _ _
      · exact fun b hb => .inl (Unfiltered.caseTerm (Unfiltered.source _ _ _ _) b hb)
  · obtain ⟨j, -, rfl⟩ := List.mem_map.1 hj
    exact ⟨hexpr _ _, hexpr _ _⟩
  · rcases List.mem_append.1 ht with ht | ht
    · obtain ⟨e, -, rfl⟩ := List.mem_map.1 ht
      exact hexpr _ _
    · obtain ⟨f, hf, rfl⟩ := List.mem_map.1 ht
      exact fun b hb => .inr ⟨f, hf, List.mem_singleton.1 hb⟩
  · obtain ⟨e, -, rfl⟩ := List.mem_map.1 ht
    exact hexpr _ _
  · obtain ⟨k, -, rfl⟩ := List.mem_map.1 hk
    exact hexpr _ _

end ParamQuery
