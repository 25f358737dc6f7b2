/-
How often the filters of a query are settled. A filter is visited once, or not
at all if its part of the query is not written, unless it stands in the test of
a conditional whose true branch is a conditional again: such a test guards
several arms and is visited for each of them (`Expr.repeatedNames`). The proof
counts a name in the slots of a term, and follows the expression.
-/
import ParamQuery.Proofs.EmitInline
import ParamQuery.Proofs.Transcripts
import Mathlib.Data.List.Basic

namespace ParamQuery

open Sql

/-! ## Names -/

/-- The names of the filters of a query that stands as an expression. -/
def Expr.ownFilterNames : Expr → List String
  | .subquery q => q.filters.flatMap Filter.names
  | _ => []

/-- The names of the filters inside an expression, at any depth. -/
def Expr.filterNames (e : Expr) : List String := e.subterms.flatMap Expr.ownFilterNames

/-- The names in a test that guards more than one arm. -/
def Expr.ownRepeatedNames : Expr → List String
  | .conditional test (.conditional _ _ _) _ => test.filterNames
  | _ => []

/-- The names of the filters inside an expression that are written more than
once. -/
def Expr.repeatedNames (e : Expr) : List String := e.subterms.flatMap Expr.ownRepeatedNames

/-! ## Weights -/

section Weights

variable (n : String)

/-- How often a name stands in the filters of slots. -/
def weight (l : List Slot) : Nat := (l.flatMap Slot.filterNames).count n

@[simp] theorem weight_nil : weight n [] = 0 := rfl

theorem weight_append (l l' : List Slot) : weight n (l ++ l') = weight n l + weight n l' := by
  simp [weight]

theorem weight_flatMap_le {α : Type} {l : List α} {slots : α → List Slot} {names : α → List String}
    (h : ∀ a ∈ l, weight n (slots a) ≤ (names a).count n) :
    weight n (l.flatMap slots) ≤ (l.flatMap names).count n := by
  induction l with
  | nil => simp
  | cons a l ih =>
    rw [List.flatMap_cons, List.flatMap_cons, weight_append, List.count_append]
    exact Nat.add_le_add (h a (by simp)) (ih fun b hb => h b (by simp [hb]))

/-- How often a name stands in the tests and leaves of a tree. -/
def treeWeight : Decision (Term Slot) → Nat
  | .leaf t => weight n t.slots
  | .test condition ifTrue ifFalse => weight n condition.slots + treeWeight ifTrue + treeWeight ifFalse

/-- The name is in no test that guards more than one arm. -/
def Frugal : Decision (Term Slot) → Prop
  | .leaf _ => True
  | .test condition ifTrue ifFalse =>
    (∀ c t f, ifTrue = .test c t f → weight n condition.slots = 0) ∧ Frugal ifTrue ∧ Frugal ifFalse

/-- The name in arms that are guarded, and in the value behind them. -/
def armsWeight (d : List (List (Term Slot) × Term Slot) × Term Slot) : Nat :=
  weight n (d.1.flatMap fun arm => (Arm.mk arm.1 arm.2).slots) + weight n d.2.slots

theorem weight_guards {guards : List (Term Slot)} (h : ∀ g ∈ guards, weight n g.slots = 0) :
    weight n (guards.flatMap Term.slots) = 0 := by
  induction guards with
  | nil => rfl
  | cons g guards ih =>
    rw [List.flatMap_cons, weight_append, h g (by simp), ih fun t ht => h t (by simp [ht])]

theorem weight_arm (guards : List (Term Slot)) (value : Term Slot) :
    weight n (Arm.mk guards value).slots = weight n (guards.flatMap Term.slots) + weight n value.slots := by
  rw [Arm.slots, weight_append]

/-- Flattening a tree writes a name as often as the tree does, if the name is in
no guard around it and in no test that guards several arms. -/
theorem armsWeight_flattenUnder {d : Decision (Term Slot)} (hd : Frugal n d) {guards : List (Term Slot)}
    (hguards : ∀ g ∈ guards, weight n g.slots = 0) : armsWeight n (d.flattenUnder guards) = treeWeight n d := by
  induction d generalizing guards with
  | leaf t => simp [Decision.flattenUnder, armsWeight, treeWeight]
  | test condition ifTrue ifFalse ihT ihF =>
    obtain ⟨hcondition, hT, hF⟩ := hd
    have hno := ihF hF hguards
    have houtside := weight_guards n hguards
    simp only [armsWeight, Decision.flattenUnder, List.flatMap_append, List.flatMap_cons, List.flatMap_nil,
      weight_append, weight_nil, weight_arm, treeWeight] at hno ⊢
    cases ifTrue with
    | leaf t =>
      simp only [Decision.flattenUnder, List.flatMap_nil, weight_nil, treeWeight]
      omega
    | test c t f =>
      have hzero := hcondition c t f rfl
      have hinner : ∀ g ∈ guards ++ [condition], weight n g.slots = 0 := by
        intro g hg
        rcases List.mem_append.1 hg with hg | hg
        · exact hguards g hg
        · exact List.mem_singleton.1 hg ▸ hzero
      have hyes := ihT hT hinner
      simp only [armsWeight] at hyes
      omega

theorem weight_caseTerm {d : Decision (Term Slot)} (hd : Frugal n d) :
    weight n (caseTerm d).slots = treeWeight n d := by
  cases d with
  | leaf t => rfl
  | test condition ifTrue ifFalse =>
    rw [← armsWeight_flattenUnder n hd (List.forall_mem_nil _)]
    simp only [caseTerm, Term.slots, armSlots_eq_flatMap, List.flatMap_map, weight_append, armsWeight,
      Decision.flatten]

end Weights

/-! ## Emission -/

section Emission

variable {n : String}

/-- What is asked of the expressions inside one for the name to be settled no
more often than it stands there. -/
def Expr.Sparing (n : String) (e : Expr) : Prop := e.FiltersReadable ∧ n ∉ e.ownRepeatedNames

/-- An expression writes the name no more often than it has it. -/
def Spares (n : String) (e : Expr) : Prop :=
  (∀ x ∈ e.subterms, x.Sparing n) → ∀ (sc : Scope) (m : Mode) (beside : Bool),
    Frugal n (e.emit sc m beside).tree ∧ treeWeight n (e.emit sc m beside).tree ≤ e.filterNames.count n

theorem Spares.term {e : Expr} (h : Spares n e) (hspare : ∀ x ∈ e.subterms, x.Sparing n) (sc : Scope) (m : Mode)
    (beside : Bool) : weight n (e.emit sc m beside).term.slots ≤ e.filterNames.count n := by
  obtain ⟨hfrugal, hle⟩ := h hspare sc m beside
  rw [Emitted.term, weight_caseTerm n hfrugal]
  exact hle

/-- A term on its own is frugal. -/
theorem frugal_ofTerm {t : Term Slot} {jsonText : Bool} {k : Nat} (h : weight n t.slots ≤ k) :
    Frugal n (Emitted.ofTerm t jsonText).tree ∧ treeWeight n (Emitted.ofTerm t jsonText).tree ≤ k :=
  ⟨trivial, h⟩

/-- The names of the filters in the keys of a source. -/
def Source.filterNames (s : Source) : List String := s.subterms.flatMap Expr.ownFilterNames

theorem Source.weight_emit {s : Source} (ih : s.All (Spares n)) (hspare : ∀ x ∈ s.subterms, x.Sparing n) (sc : Scope)
    (m : Mode) (beside : Bool) : weight n (s.emit sc m beside).term.slots ≤ s.filterNames.count n := by
  have hkeys := Source.all_of_subterms hspare
  have hcolumns : ∀ l : List (Term Slot), (∀ t ∈ l, t.slots = []) → termSlots l = [] := by
    intro l hl
    rw [termSlots_eq_flatMap]
    exact List.flatMap_eq_nil_iff.2 hl
  obtain ⟨typeName, members, own, groupJoin⟩ := s
  cases groupJoin with
  | none =>
    have hslots : (Source.emit ⟨typeName, members, own, none⟩ sc m beside).term.slots = [] := by
      simp only [Source.emit]
      split
      · rfl
      · show (sourceTerm _ _).slots = []
        unfold sourceTerm
        split
        · rfl
        · refine hcolumns _ fun t ht => ?_
          obtain ⟨c, -, rfl⟩ := List.mem_map.1 ht
          rfl
    rw [hslots]
    exact Nat.zero_le _
  | some g =>
    obtain ⟨outer, inner⟩ := g
    obtain ⟨ihO, ihI⟩ := ih _ rfl
    obtain ⟨hO, hI⟩ := hkeys _ rfl
    show weight n (groupJoinTerm _ _ _ (Emitted.term _) (Emitted.term _)).slots ≤ _
    rw [groupJoinTerm]
    simp only [Term.slots, termSlots, List.append_nil]
    rw [hcolumns _ (by
      intro t ht
      obtain ⟨c, -, rfl⟩ := List.mem_map.1 ht
      rfl), List.nil_append, weight_append, Source.filterNames, Source.subterms, List.flatMap_append,
      List.count_append, Nat.add_comm]
    exact Nat.add_le_add (ihO.term hO _ _ _) (ihI.term hI _ _ _)

theorem Query.weight_emitItems {q : Query} (ih : q.All (Spares n)) (hspare : ∀ x ∈ q.subterms, x.Sparing n)
    (sc : Scope) :
    weight n (q.emitItems sc).slots ≤
      q.source.filterNames.count n + (q.selector.toList.flatMap Expr.filterNames).count n := by
  have hparts := Query.all_of_subterms hspare
  unfold Query.emitItems
  split
  · exact Nat.zero_le _
  · split
    · rename_i e he
      rw [he, Option.toList_some, List.flatMap_singleton]
      exact le_trans ((ih.selector e he).term (hparts.selector e he) _ _ _) (Nat.le_add_left _ _)
    · refine le_trans (Source.weight_emit ih.source (fun x hx => hspare x ?_) _ _ _) (Nat.le_add_right _ _)
      rw [Query.subterms_eq]
      simp [hx]

/-- The names in a query, clause by clause. -/
theorem Query.filterNames_eq (q : Query) :
    (Expr.subquery q).filterNames = q.filters.flatMap Filter.names ++ (q.source.filterNames ++
      q.selector.toList.flatMap Expr.filterNames ++
      (q.joins.flatMap fun j => j.outer.filterNames ++ j.inner.filterNames) ++
      q.conditions.flatMap Expr.filterNames ++ q.groupBy.flatMap Expr.filterNames ++
      q.orderBy.flatMap fun k => k.key.filterNames) := by
  rw [Expr.filterNames, Expr.subterms, List.flatMap_cons, Query.subterms_eq]
  simp only [List.flatMap_append, List.flatMap_assoc]
  rfl

theorem Query.weight_emit {q : Query} (ih : q.All (Spares n)) (hspare : ∀ x ∈ q.subterms, x.Sparing n)
    (hown : (Expr.subquery q).FiltersReadable) (sc : Scope) :
    weight n (q.emit sc).slots ≤ (Expr.subquery q).filterNames.count n := by
  have hparts := Query.all_of_subterms hspare
  have hjoins : weight n (q.joins.flatMap fun j => (j.emit (q.scope sc)).slots) ≤
      (q.joins.flatMap fun j => j.outer.filterNames ++ j.inner.filterNames).count n := by
    refine weight_flatMap_le n fun j hj => ?_
    rw [JoinOn.slots, weight_append, List.count_append]
    exact Nat.add_le_add ((ih.joins j hj).1.term (hparts.joins j hj).1 _ _ _)
      ((ih.joins j hj).2.term (hparts.joins j hj).2 _ _ _)
  have hconditions : weight n (q.conditions.flatMap fun e => (e.emit (q.scope sc) {} false).term.slots) ≤
      (q.conditions.flatMap Expr.filterNames).count n :=
    weight_flatMap_le n fun e he => (ih.conditions e he).term (hparts.conditions e he) _ _ _
  have hgroups : weight n (q.groupBy.flatMap fun e => (e.emit (q.scope sc) {} false).term.slots) ≤
      (q.groupBy.flatMap Expr.filterNames).count n :=
    weight_flatMap_le n fun e he => (ih.groupBy e he).term (hparts.groupBy e he) _ _ _
  have horder : weight n (q.orderBy.flatMap fun k => (k.emit (q.scope sc)).key.slots) ≤
      (q.orderBy.flatMap fun k => k.key.filterNames).count n :=
    weight_flatMap_le n fun k hk => (ih.orderBy k hk).term (hparts.orderBy k hk) _ _ _
  have hfilters : weight n (q.filters.flatMap fun f =>
      [Slot.filter (f.command sc.table (some (q.tableName sc.table)))]) ≤
      (q.filters.flatMap Filter.names).count n := by
    refine weight_flatMap_le n fun f hf => ?_
    have hnames := Filter.names_command sc.table (some (q.tableName sc.table)) (hown f hf).nodup
    simp [weight, Slot.filterNames, hnames]
  have hitems := Query.weight_emitItems ih hspare (q.scope sc)
  rw [Select.slots_eq, Query.emit_eq, Query.filterNames_eq]
  simp only [List.flatMap_map, List.flatMap_append, weight_append, List.count_append, Term.slots]
  omega

/-- A member writes what stands in front of its column. -/
theorem weight_memberTerm (sc : Scope) (own : Option String) (qualifier : Term Slot) (path : List String) (m : Mode) :
    weight n (memberTerm sc own qualifier path m).term.slots ≤ weight n qualifier.slots := by
  rw [slots_memberTerm]
  unfold columnTerm
  split
  · exact Nat.zero_le _
  · split
    · exact le_refl _
    · split
      · simp [Term.slots, termSlots, weight, Slot.filterNames]
      · exact le_refl _

theorem weight_emitEach {es : List Expr} (ih : ∀ e ∈ es, Spares n e)
    (hspare : ∀ x ∈ listSubterms es, x.Sparing n) (sc : Scope) (m : Mode) (beside : Bool) :
    weight n (termSlots (emitEach es sc m beside)) ≤ ((listSubterms es).flatMap Expr.ownFilterNames).count n := by
  rw [emitEach_eq_map, termSlots_eq_flatMap, List.flatMap_map, listSubterms_eq_flatMap, List.flatMap_assoc]
  rw [listSubterms_eq_flatMap] at hspare
  exact weight_flatMap_le n fun e he =>
    (ih e he).term (fun x hx => hspare x (List.mem_flatMap.2 ⟨e, he, hx⟩)) _ _ _

/-- What has branches is a conditional. -/
theorem Expr.isConditional_of_tree {e : Expr} {sc : Scope} {m : Mode} {beside : Bool} {c : Term Slot}
    {t f : Decision (Term Slot)} (h : (e.emit sc m beside).tree = .test c t f) :
    ∃ test ifTrue ifFalse, e = .conditional test ifTrue ifFalse := by
  by_contra hnone
  rw [Expr.tree_eq_leaf fun test ifTrue ifFalse heq => hnone ⟨test, ifTrue, ifFalse, heq⟩] at h
  cases h

/-- **A name is settled no more often than it stands in the query**, unless it is
in a test that guards several arms. -/
theorem Expr.spares (e : Expr) : Spares n e := by
  induction e using Expr.induction with
  | source s ih =>
    intro hspare sc m beside
    have hle := Source.weight_emit ih (fun x hx => hspare x (by simp [Expr.subterms, hx])) sc m beside
    rw [Expr.emit, Source.tree_emit]
    exact ⟨trivial, hle⟩
  | subquery q ih =>
    intro hspare sc m beside
    exact frugal_ofTerm (Query.weight_emit ih (fun x hx => hspare x (by simp [Expr.subterms, hx]))
      (hspare _ (Expr.mem_subterms_self _)).1 sc)
  | binary op left right ihl ihr =>
    intro hspare sc m beside
    have hl := ihl.term (fun x hx => hspare x (by simp [Expr.subterms, hx])) sc m.operand false
    have hr := ihr.term (fun x hx => hspare x (by simp [Expr.subterms, hx])) sc m.operand
    have hnames : (Expr.binary op left right).filterNames = left.filterNames ++ right.filterNames := by
      simp [Expr.filterNames, Expr.subterms, Expr.ownFilterNames]
    rw [hnames, List.count_append]
    simp only [Expr.emit]
    split
    · refine frugal_ofTerm ?_
      rw [Term.slots, slots_parenIf]
      omega
    · split
      · refine frugal_ofTerm ?_
        rw [Term.slots, slots_parenIf]
        exact le_trans (hr false) (Nat.le_add_left _ _)
      · refine frugal_ofTerm ?_
        rw [Term.slots, slots_parenIf, slots_parenIf, weight_append]
        exact Nat.add_le_add hl (hr _)
  | conditional test ifTrue ifFalse iht iha ihb =>
    intro hspare sc m beside
    have ht := iht.term (fun x hx => hspare x (by simp [Expr.subterms, hx])) sc m.inCase false
    obtain ⟨hfa, ha⟩ := iha (fun x hx => hspare x (by simp [Expr.subterms, hx])) sc m.inCase false
    obtain ⟨hfb, hb⟩ := ihb (fun x hx => hspare x (by simp [Expr.subterms, hx])) sc m.inCase false
    have hnames : (Expr.conditional test ifTrue ifFalse).filterNames =
        test.filterNames ++ ifTrue.filterNames ++ ifFalse.filterNames := by
      simp [Expr.filterNames, Expr.subterms, Expr.ownFilterNames]
    rw [hnames, List.count_append, List.count_append]
    refine ⟨⟨fun c t f htree => ?_, hfa, hfb⟩, Nat.add_le_add (Nat.add_le_add ht ha) hb⟩
    -- the test guards the arms of the conditional in the true branch as well
    obtain ⟨test', ifTrue', ifFalse', rfl⟩ := Expr.isConditional_of_tree htree
    have hnone : n ∉ test.filterNames := (hspare _ (Expr.mem_subterms_self _)).2
    rw [List.count_eq_zero.2 hnone] at ht
    exact Nat.le_zero.1 ht
  | constant value =>
    intro hspare sc m beside
    exact frugal_ofTerm (Nat.zero_le _)
  | member root path type ih =>
    intro hspare sc m beside
    have hroot : weight n (emitRoot root sc m.forMemberRoot beside).slots ≤
        (Expr.member root path type).filterNames.count n := by
      cases root with
      | none => exact Nat.zero_le _
      | some s =>
        have hle := Source.weight_emit (ih s rfl)
          (fun x hx => hspare x (by simp [Expr.subterms, rootSubterms, hx])) sc m.forMemberRoot beside
        exact hle
    simp only [Expr.emit]
    split
    · exact frugal_ofTerm (Nat.zero_le _)
    · exact frugal_ofTerm (le_trans (weight_memberTerm sc (root.bind (·.table)) _ path m) hroot)
  | call method receiver arguments ihr iha =>
    intro hspare sc m beside
    have hargs := weight_emitEach iha (fun x hx => hspare x (by simp [Expr.subterms, hx])) sc m.operand
    have hnames : (Expr.call method receiver arguments).filterNames =
        (optionSubterms receiver).flatMap Expr.ownFilterNames ++
          (listSubterms arguments).flatMap Expr.ownFilterNames := by
      simp [Expr.filterNames, Expr.subterms, Expr.ownFilterNames]
    rw [hnames, List.count_append]
    simp only [Expr.emit]
    split
    · refine frugal_ofTerm ?_
      simp only [Term.slots, termSlots, List.append_nil]
      exact le_trans (hargs false) (Nat.le_add_left _ _)
    · cases receiver with
      | none => exact frugal_ofTerm (le_trans (hargs false) (Nat.le_add_left _ _))
      | some r =>
        have hr := (ihr r rfl).term (fun x hx => hspare x (by simp [Expr.subterms, optionSubterms, hx])) sc
          m.operand false
        refine frugal_ofTerm ?_
        simp only [Term.slots, termSlots, weight_append]
        exact Nat.add_le_add hr (hargs _)
  | project items ih =>
    intro hspare sc m beside
    have hitems := weight_emitEach ih (fun x hx => hspare x (by simp [Expr.subterms, hx])) sc m.operand.forLabels false
    have hnames : (Expr.project items).filterNames = (listSubterms items).flatMap Expr.ownFilterNames := by
      simp [Expr.filterNames, Expr.subterms, Expr.ownFilterNames]
    rw [hnames]
    simp only [Expr.emit]
    split
    · exact frugal_ofTerm (Nat.zero_le _)
    · exact frugal_ofTerm hitems
  | unary op operand ih =>
    intro hspare sc m beside
    have hoperand := ih.term (fun x hx => hspare x (by simp [Expr.subterms, hx])) sc
    have hnames : (Expr.unary op operand).filterNames = operand.filterNames := by
      simp [Expr.filterNames, Expr.subterms, Expr.ownFilterNames]
    rw [hnames]
    cases op with
    | not | convert | typeAs => exact frugal_ofTerm (hoperand _ _)

/-- How often the slots of a query's statement name a filter. -/
theorem Query.weight_slots_le {q : Query} (hread : ∀ x ∈ (Expr.subquery q).subterms, x.FiltersReadable)
    (hn : n ∉ (Expr.subquery q).repeatedNames) (sc : Scope) :
    weight n (q.emit sc).slots ≤ (Expr.subquery q).filterNames.count n := by
  have hspare : ∀ x ∈ (Expr.subquery q).subterms, x.Sparing n :=
    fun x hx => ⟨hread x hx, fun hmem => hn (List.mem_flatMap.2 ⟨x, hx, hmem⟩)⟩
  exact Query.weight_emit (.intro (fun e => e.spares) q) (fun x hx => hspare x (by simp [Expr.subterms, hx]))
    (hread _ (Expr.mem_subterms_self _)) sc

end Emission

end ParamQuery
