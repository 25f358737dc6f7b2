/-
Which values are bound as text. Inside a JSON document everything is read as
text, so a value that is compared with something from there is bound as text
too. `Expr.yieldsJsonText` says what is such text, and a `Place` says what a constant
is compared with; `Expr.constantsUnder` lists the constants of an expression with
their places, as often and in the order as they are written.

`text_bindings`: the values that an expression binds are its constants, as text
exactly where the place compares with JSON text, as long as nothing is negated and
no source counts groups. Behind a negation the rule fails: what stands beside it is
taken for what is negated (`negation_binds_text`).
-/
import ParamQuery.Proofs.EmittedSlots
import ParamQuery.Proofs.ExpressionText
import ParamQuery.Proofs.SessionRegistry

namespace ParamQuery

open Sql

/-! ## Places -/

mutual
/-- Whether an expression is text out of a JSON document: a member inside one,
unless it is a length; what a method makes of such text; and a conversion of it. -/
def Expr.yieldsJsonText : Expr → Bool
  | .member _ path _ => 1 < path.length && !isLengthPath path
  | .call method receiver _ => method.transformsReceiver && optionYieldsJsonText receiver
  | .unary .convert operand => operand.yieldsJsonText
  | .unary .typeAs operand => operand.yieldsJsonText
  | _ => false
/-- Whether an expression that may be missing is text out of a JSON document. -/
def optionYieldsJsonText : Option Expr → Bool
  | none => false
  | some e => e.yieldsJsonText
end

/-- Where a constant stands, conversions around it apart. -/
inductive Place where
  /-- On the right of an operator. -/
  | rightOf (left : Expr)
  /-- Among the arguments of a call. -/
  | argumentOf (method : Method) (receiver : Option Expr)
  | elsewhere

/-- Whether what stands there is compared with JSON text. -/
def Place.comparesWithJsonText : Place → Bool
  | .rightOf left => left.yieldsJsonText
  | .argumentOf method receiver => method.comparesWithReceiver && optionYieldsJsonText receiver
  | .elsewhere => false

/-- A constant at its place. -/
structure Occurrence where
  value : Literal
  place : Place

/-- How the constant is to be bound. -/
def Occurrence.binding (o : Occurrence) : Binding := boundAs o.value o.place.comparesWithJsonText

/-- The constants of the arms and of the value behind them. -/
def wholeOf (t : List Occurrence × List Occurrence) : List Occurrence := t.1 ++ t.2

mutual
/-- The constants of an expression that stands at a place, below conditionals
whose guards hold the constants `guards`: those of the arms that it adds, each
behind its guards, and those of its value when none of these applies. The null of a
null test and the receiver of a concatenation are not written. -/
def Expr.constantsUnder : Expr → Place → List Occurrence → List Occurrence × List Occurrence
  | .source _, _, _ => ([], [])
  | .subquery q, _, _ => ([], q.constants)
  | .binary op left right, _, _ =>
    ([], if op.isEquality && right.isNull then wholeOf (left.constantsUnder .elsewhere [])
      else if op.isEquality && left.isNull then wholeOf (right.constantsUnder (.rightOf left) [])
      else wholeOf (left.constantsUnder .elsewhere []) ++ wholeOf (right.constantsUnder (.rightOf left) []))
  | .conditional test ifTrue ifFalse, _, guards =>
    let inner := guards ++ wholeOf (test.constantsUnder .elsewhere [])
    let yes := ifTrue.constantsUnder .elsewhere inner
    let no := ifFalse.constantsUnder .elsewhere guards
    (yes.1 ++ inner ++ yes.2 ++ no.1, no.2)
  | .constant value, place, _ => ([], [⟨value, place⟩])
  | .member _ _ _, _, _ => ([], [])
  | .call method receiver arguments, _, _ =>
    ([], (if method = .concat then [] else optionConstants receiver) ++
      listConstants arguments (.argumentOf method receiver))
  | .project items, _, _ => ([], listConstants items .elsewhere)
  | .unary .not operand, _, _ => ([], wholeOf (operand.constantsUnder .elsewhere []))
  | .unary .convert operand, place, _ => ([], wholeOf (operand.constantsUnder place []))
  | .unary .typeAs operand, place, _ => ([], wholeOf (operand.constantsUnder place []))
/-- The constants of an expression that may be missing. -/
def optionConstants : Option Expr → List Occurrence
  | none => []
  | some e => wholeOf (e.constantsUnder .elsewhere [])
/-- The constants of some expressions, all at one place. -/
def listConstants : List Expr → Place → List Occurrence
  | [], _ => []
  | e :: rest, place => wholeOf (e.constantsUnder place []) ++ listConstants rest place
/-- The constants in the keys of the joins. -/
def joinConstants : List Join → List Occurrence
  | [] => []
  | ⟨_, _, outer, inner⟩ :: rest =>
    wholeOf (outer.constantsUnder .elsewhere []) ++ wholeOf (inner.constantsUnder .elsewhere []) ++ joinConstants rest
/-- The constants in the sort keys. -/
def sortConstants : List SortKey → List Occurrence
  | [] => []
  | ⟨key, _⟩ :: rest => wholeOf (key.constantsUnder .elsewhere []) ++ sortConstants rest
/-- The constants of a query, clause by clause. -/
def Query.constants : Query → List Occurrence
  | ⟨_, selector, joins, conditions, _, groupBy, orderBy, _, _, _, count⟩ =>
    (if count then [] else optionConstants selector) ++ joinConstants joins ++ listConstants conditions .elsewhere ++
      listConstants groupBy .elsewhere ++ sortConstants orderBy
end

/-- The constants of an expression on its own. -/
def Expr.constants (e : Expr) : List Occurrence := wholeOf (e.constantsUnder .elsewhere [])

theorem optionConstants_eq_flatMap (o : Option Expr) : optionConstants o = o.toList.flatMap Expr.constants := by
  cases o <;> simp [optionConstants, Expr.constants]

theorem listConstants_eq_flatMap (es : List Expr) (place : Place) :
    listConstants es place = es.flatMap fun e => wholeOf (e.constantsUnder place []) := by
  induction es with
  | nil => rfl
  | cons e es ih => simp [listConstants, ih]

theorem joinConstants_eq_flatMap (js : List Join) :
    joinConstants js = js.flatMap fun j => j.outer.constants ++ j.inner.constants := by
  induction js with
  | nil => rfl
  | cons j js ih =>
    obtain ⟨kind, table, outer, inner⟩ := j
    simp [joinConstants, Expr.constants, ih]

theorem sortConstants_eq_flatMap (ks : List SortKey) :
    sortConstants ks = ks.flatMap fun k => k.key.constants := by
  induction ks with
  | nil => rfl
  | cons k ks ih =>
    obtain ⟨key, direction⟩ := k
    simp [sortConstants, Expr.constants, ih]

theorem Query.constants_eq (q : Query) :
    q.constants = (if q.count then [] else q.selector.toList.flatMap Expr.constants) ++
      (q.joins.flatMap fun j => j.outer.constants ++ j.inner.constants) ++
      q.conditions.flatMap Expr.constants ++ q.groupBy.flatMap Expr.constants ++
      q.orderBy.flatMap fun k => k.key.constants := by
  obtain ⟨source, selector, joins, conditions, filters, groupBy, orderBy, limit, offset, distinct, count⟩ := q
  simp only [Query.constants, optionConstants_eq_flatMap, listConstants_eq_flatMap, joinConstants_eq_flatMap,
    sortConstants_eq_flatMap]
  rfl

/-! ## Direct expressions -/

/-- No negation, and no source that counts groups. -/
def Expr.isDirect : Expr → Bool
  | .unary .not _ => false
  | .source s => s.groupJoin.isNone
  | .member root _ _ => root.all (·.groupJoin.isNone)
  | .subquery q => q.source.groupJoin.isNone
  | _ => true

/-- In a direct expression JSON text comes from a member only. -/
theorem Expr.isJsonText_of_direct {e : Expr} (h : ∀ x ∈ e.subterms, x.isDirect) :
    e.isJsonText false = e.yieldsJsonText := by
  induction e using Expr.induction with
  | source s _ =>
    have hself := h _ (Expr.mem_subterms_self _)
    obtain ⟨typeName, members, own, _ | g⟩ := s
    · rfl
    · cases hself
  | subquery q _ => rfl
  | binary op left right _ _ => rfl
  | conditional test ifTrue ifFalse _ _ _ => rfl
  | constant value => rfl
  | member root path type _ =>
    have hlength : (lengthDepth path == 0) = !isLengthPath path := by
      rw [Bool.eq_iff_iff, beq_iff_eq, Bool.not_eq_true', ← Bool.not_eq_true, ← lengthDepth_pos_iff,
        Nat.pos_iff_ne_zero, not_not]
    rw [Expr.isJsonText, Expr.yieldsJsonText, hlength]
  | call method receiver arguments ihr _ =>
    cases receiver with
    | none => rfl
    | some r =>
      have hr := ihr r rfl fun x hx => h x (by simp [Expr.subterms, optionSubterms, hx])
      simp only [Expr.isJsonText, Expr.yieldsJsonText, optionIsJsonText, optionYieldsJsonText, hr]
  | project items _ => rfl
  | unary op operand ih =>
    have hoperand := ih fun x hx => h x (List.mem_cons_of_mem _ hx)
    cases op with
    | not => cases h _ (Expr.mem_subterms_self _)
    | convert | typeAs => exact hoperand

theorem optionIsJsonText_of_direct {o : Option Expr} (h : ∀ e ∈ o, ∀ x ∈ e.subterms, x.isDirect) :
    optionIsJsonText o = optionYieldsJsonText o := by
  cases o with
  | none => rfl
  | some e => exact Expr.isJsonText_of_direct (h e rfl)

theorem Expr.yieldsJsonText_of_isNull {e : Expr} (h : e.isNull) : e.yieldsJsonText = false := by
  cases e with
  | constant value => rfl
  | _ => cases h

/-! ## Slots -/

/-- The values that a slot binds by itself. -/
def Slot.bound : Slot → List Binding
  | .value v asText => [boundAs v asText]
  | _ => []

/-- The slots bind the constants, in order. -/
def BindsAll (slots : List Slot) (constants : List Occurrence) : Prop :=
  slots.flatMap Slot.bound = constants.map Occurrence.binding

theorem BindsAll.append {slots slots' : List Slot} {constants constants' : List Occurrence}
    (h : BindsAll slots constants) (h' : BindsAll slots' constants') :
    BindsAll (slots ++ slots') (constants ++ constants') := by
  rw [BindsAll, List.flatMap_append, List.map_append, h, h']

theorem BindsAll.flatMap {α : Type} {xs : List α} {slots : α → List Slot} {constants : α → List Occurrence}
    (h : ∀ x ∈ xs, BindsAll (slots x) (constants x)) : BindsAll (xs.flatMap slots) (xs.flatMap constants) := by
  induction xs with
  | nil => rfl
  | cons x xs ih =>
    rw [List.flatMap_cons, List.flatMap_cons]
    exact (h x List.mem_cons_self).append (ih fun y hy => h y (List.mem_cons_of_mem _ hy))

/-- Slots without values bind nothing. -/
theorem BindsAll.of_forall {slots : List Slot} (h : ∀ s ∈ slots, s.bound = []) : BindsAll slots [] :=
  List.flatMap_eq_nil_iff.2 h

/-- A direct expression binds its constants, at whatever place and below
whatever guards. -/
def BindsConstants (e : Expr) : Prop :=
  (∀ x ∈ e.subterms, x.isDirect) → ∀ (sc : Scope) (m : Mode) (place : Place) (guards : List Slot)
    (constants : List Occurrence), BindsAll guards constants →
    BindsAll ((e.emit sc m place.comparesWithJsonText).tree.slotsUnder guards).1 (e.constantsUnder place constants).1 ∧
    BindsAll ((e.emit sc m place.comparesWithJsonText).tree.slotsUnder guards).2 (e.constantsUnder place constants).2

theorem BindsConstants.term {e : Expr} (h : BindsConstants e) (hdirect : ∀ x ∈ e.subterms, x.isDirect) (sc : Scope)
    (m : Mode) (place : Place) :
    BindsAll (e.emit sc m place.comparesWithJsonText).term.slots (wholeOf (e.constantsUnder place [])) := by
  obtain ⟨harms, hvalue⟩ := h hdirect sc m place [] [] rfl
  rw [Emitted.term, slots_caseTerm]
  exact harms.append hvalue

/-- What is no conditional adds no arms. -/
theorem BindsConstants.leaf {e : Expr} (hleaf : ∀ test ifTrue ifFalse, e ≠ .conditional test ifTrue ifFalse)
    {constants : List Occurrence} {sc : Scope} {m : Mode} {beside : Bool}
    (h : BindsAll (e.emit sc m beside).term.slots constants) (guards : List Slot) :
    BindsAll ((e.emit sc m beside).tree.slotsUnder guards).1 [] ∧
      BindsAll ((e.emit sc m beside).tree.slotsUnder guards).2 constants := by
  rw [Expr.tree_eq_leaf hleaf]
  exact ⟨rfl, h⟩

/-- A source without a group join has no slots. -/
theorem Source.slots_emit_of_isNone {s : Source} (h : s.groupJoin.isNone) (sc : Scope) (m : Mode) (beside : Bool) :
    (s.emit sc m beside).term.slots = [] := by
  rw [Source.slots_emit, Option.isNone_iff_eq_none.1 h]
  rfl

theorem Query.bindsAll {q : Query} (ih : q.All BindsConstants) (hsource : q.source.groupJoin.isNone)
    (hdirect : ∀ x ∈ q.subterms, x.isDirect) (sc : Scope) : BindsAll (q.emit sc).slots q.constants := by
  have hparts := Query.all_of_subterms hdirect
  have hitems : BindsAll (q.emitItems (q.scope sc)).slots
      (if q.count then [] else q.selector.toList.flatMap Expr.constants) := by
    unfold Query.emitItems
    split
    · rfl
    · cases hsel : q.selector with
      | some e =>
        rw [Option.toList_some, List.flatMap_singleton]
        exact (ih.selector e hsel).term (hparts.selector e hsel) _ _ .elsewhere
      | none => exact BindsAll.of_forall (by simp [Source.slots_emit_of_isNone hsource])
  have hjoins : BindsAll (q.joins.flatMap fun j => (j.outer.emit (q.scope sc) {} false).term.slots ++
      (j.inner.emit (q.scope sc) {} false).term.slots)
      (q.joins.flatMap fun j => j.outer.constants ++ j.inner.constants) :=
    .flatMap fun j hj => ((ih.joins j hj).1.term (hparts.joins j hj).1 _ _ .elsewhere).append
      ((ih.joins j hj).2.term (hparts.joins j hj).2 _ _ .elsewhere)
  have hlist : ∀ es : List Expr, (∀ e ∈ es, BindsConstants e) → (∀ e ∈ es, ∀ x ∈ e.subterms, x.isDirect) →
      BindsAll (es.flatMap fun e => (e.emit (q.scope sc) {} false).term.slots) (es.flatMap Expr.constants) :=
    fun es hes hsub => .flatMap fun e he => (hes e he).term (hsub e he) _ _ .elsewhere
  have hfilters : BindsAll (q.filters.map fun f => .filter (f.command sc.table (some (q.tableName sc.table)))) [] :=
    .of_forall (by simp [Slot.bound])
  have hconditions := (hlist _ ih.conditions hparts.conditions).append hfilters
  rw [List.append_nil] at hconditions
  have hkeys : BindsAll (q.orderBy.flatMap fun k => (k.key.emit (q.scope sc) {} false).term.slots)
      (q.orderBy.flatMap fun k => k.key.constants) :=
    .flatMap fun k hk => (ih.orderBy k hk).term (hparts.orderBy k hk) _ _ .elsewhere
  rw [Query.slots_emit, Query.constants_eq]
  exact (((hitems.append hjoins).append hconditions).append (hlist _ ih.groupBy hparts.groupBy)).append hkeys

/-- **The constants of a direct expression** are bound where they are written. -/
theorem Expr.bindsConstants (e : Expr) : BindsConstants e := by
  induction e using Expr.induction with
  | source s ih =>
    intro hdirect sc m place guards constants _
    refine BindsConstants.leaf (by simp) ?_ guards
    exact BindsAll.of_forall (by simp [Expr.emit, Source.slots_emit_of_isNone (hdirect _ (Expr.mem_subterms_self _))])
  | subquery q ih =>
    intro hdirect sc m place guards constants _
    refine BindsConstants.leaf (by simp) ?_ guards
    exact Query.bindsAll ih (hdirect _ (Expr.mem_subterms_self _)) (List.forall_mem_cons.1 hdirect).2 sc
  | binary op left right ihl ihr =>
    intro hdirect sc m place guards constants _
    obtain ⟨hl, hr⟩ := List.forall_mem_append.1 (List.forall_mem_cons.1 hdirect).2
    have hleft := ihl.term hl sc m.operand .elsewhere
    have hright := ihr.term hr sc m.operand (.rightOf left)
    rw [Expr.constantsUnder]
    refine BindsConstants.leaf (by simp) ?_ guards
    rw [Expr.slots_binary, Expr.isJsonText_of_direct hl]
    split
    · exact hleft
    · split
      · -- a null on the left is no JSON text
        rename_i hnull
        rw [Place.comparesWithJsonText, Expr.yieldsJsonText_of_isNull (Bool.and_eq_true_iff.1 hnull).2] at hright
        exact hright
      · exact hleft.append hright
  | conditional test ifTrue ifFalse ihc iht ihf =>
    intro hdirect sc m place guards constants hguards
    obtain ⟨h, hf⟩ := List.forall_mem_append.1 (List.forall_mem_cons.1 hdirect).2
    obtain ⟨hc, ht⟩ := List.forall_mem_append.1 h
    have hinner := hguards.append (ihc.term hc sc m.inCase .elsewhere)
    obtain ⟨hyes, hyesValue⟩ := iht ht sc m.inCase .elsewhere _ _ hinner
    obtain ⟨hno, hnoValue⟩ := ihf hf sc m.inCase .elsewhere _ _ hguards
    exact ⟨((hyes.append hinner).append hyesValue).append hno, hnoValue⟩
  | constant value => exact fun _ sc m place guards constants _ => ⟨rfl, rfl⟩
  | member root path type _ =>
    intro hdirect sc m place guards constants _
    have hroot : ∀ s ∈ root, s.groupJoin.isNone := by
      simpa [Expr.isDirect, Option.all_eq_true] using hdirect _ (Expr.mem_subterms_self _)
    refine BindsConstants.leaf (by simp) (BindsAll.of_forall fun slot hslot => ?_) guards
    rw [Expr.slots_member] at hslot
    split at hslot
    · rw [List.mem_singleton.1 hslot]
      rfl
    · rcases List.mem_append.1 hslot with hslot | hslot
      · obtain ⟨s, hs, hslot⟩ := List.mem_flatMap.1 hslot
        rw [Source.slots_emit_of_isNone (hroot s (Option.mem_toList.1 hs))] at hslot
        cases hslot
      · obtain ⟨err, -, rfl⟩ := List.mem_map.1 hslot
        rfl
  | call method receiver arguments ihr iha =>
    intro hdirect sc m place guards constants _
    have hparts := (List.forall_mem_cons.1 hdirect).2
    rw [optionSubterms_eq_flatMap, listSubterms_eq_flatMap] at hparts
    simp only [List.mem_append, List.mem_flatMap, Option.mem_toList, or_imp, forall_and, forall_exists_index,
      and_imp] at hparts
    obtain ⟨hr, ha⟩ := hparts
    have hjson := optionIsJsonText_of_direct fun e he x hx => hr x e he hx
    have hreceiver : BindsAll (receiver.toList.flatMap fun e => (e.emit sc m.operand false).term.slots)
        (receiver.toList.flatMap Expr.constants) :=
      .flatMap fun e he => (ihr e (Option.mem_toList.1 he)).term (fun x hx => hr x e (Option.mem_toList.1 he) hx) _ _
        .elsewhere
    have harguments : BindsAll
        (arguments.flatMap fun e => (e.emit sc m.operand
          (Place.argumentOf method receiver).comparesWithJsonText).term.slots)
        (arguments.flatMap fun e => wholeOf (e.constantsUnder (.argumentOf method receiver) [])) :=
      .flatMap fun e he => (iha e he).term (fun x hx => ha x e he hx) _ _ _
    rw [Expr.constantsUnder, optionConstants_eq_flatMap, listConstants_eq_flatMap]
    refine BindsConstants.leaf (by simp) ?_ guards
    rw [Expr.slots_call, hjson]
    refine BindsAll.append ?_ harguments
    split
    · rfl
    · exact hreceiver
  | project items ih =>
    intro hdirect sc m place guards constants _
    have hitems := (List.forall_mem_cons.1 hdirect).2
    rw [listSubterms_eq_flatMap] at hitems
    rw [Expr.constantsUnder, listConstants_eq_flatMap]
    refine BindsConstants.leaf (by simp) ?_ guards
    rw [Expr.slots_project]
    split
    · rename_i hempty
      rw [hempty]
      rfl
    · exact .flatMap fun e he => (ih e he).term (fun x hx => hitems x (List.mem_flatMap.2 ⟨e, he, hx⟩)) _ _ .elsewhere
  | unary op operand ih =>
    intro hdirect sc m place guards constants _
    have hoperand := ih.term (List.forall_mem_cons.1 hdirect).2 sc m place
    cases op with
    | not => cases hdirect _ (Expr.mem_subterms_self _)
    | convert | typeAs =>
      rw [Expr.constantsUnder]
      refine BindsConstants.leaf (by simp) ?_ guards
      exact hoperand

/-! ## Compilation -/

/-- The events of slots that are all accepted hold the values of the slots. -/
theorem values_slotEvents {slots : List Slot} (h : ∀ s ∈ slots, s.isAccepted) :
    (slotEvents slots).flatMap Event.values = slots.flatMap Slot.bound := by
  induction slots with
  | nil => rfl
  | cons s slots ih =>
    obtain ⟨hs, hrest⟩ := List.forall_mem_cons.1 h
    cases s with
    | value v asText => exact congrArg (boundAs v asText :: ·) (ih hrest)
    | filter c => exact ih hrest
    | reject e => cases hs

theorem slotEvents_append {slots : List Slot} (h : ∀ s ∈ slots, s.isAccepted) (rest : List Slot) :
    slotEvents (slots ++ rest) = slotEvents slots ++ slotEvents rest := by
  induction slots with
  | nil => rfl
  | cons s slots ih =>
    obtain ⟨hs, hrest⟩ := List.forall_mem_cons.1 h
    cases s with
    | value v asText => exact congrArg (Event.bound (boundAs v asText) :: ·) (ih hrest)
    | filter c => exact congrArg (Event.absorbed c :: ·) (ih hrest)
    | reject e => cases hs

section Compile

variable {e : Expr} {table : Table} {settings : Settings} {qualifier : Option String} {c : Command}

/-- An expression that compiles has registered its events, and none of its slots
refuses. -/
theorem Expr.registered_of_compile (h : e.compile table settings qualifier = .ok c) :
    c.parameters = ((Registry.ofSettings settings).takeAll
        ((Step.expression qualifier e).events table settings)).parameters ∧
      ∀ s ∈ (e.emit (.ofSettings table settings qualifier) {} false).term.slots, s.isAccepted := by
  rcases e.compile_cases table settings qualifier with ⟨u, r, hu, hvisits, hok⟩ | ⟨err, r, -, herr⟩
  · rw [hok] at h
    cases h
    rw [Step.events, ← hu, Term.slots_map]
    refine ⟨congrArg Registry.parameters hvisits.takeAll, fun s hs => ?_⟩
    obtain ⟨p, hp, rfl⟩ := List.mem_map.1 hs
    exact hvisits.accepted p hp
  · rw [herr] at h
    cases h

/-- Without entries of filters, a registry holds the values of the events. -/
theorem bindings_takeAll {events : List Event} (h : events.flatMap Event.entries = []) :
    ((Registry.ofSettings settings).takeAll events).parameters.toList.map (·.2) = events.flatMap Event.values := by
  cases hstyle : settings.style with
  | positional =>
    have hstart : (Registry.ofSettings settings).Counted [] := ⟨Registry.positional_ofSettings hstyle, rfl⟩
    rw [(hstart.takeAll events).1.bindings, List.nil_append]
    refine List.flatMap_congr fun event hevent => ?_
    cases event with
    | bound b => rfl
    | absorbed d =>
      have hnone : d.parameters.toList = [] := List.flatMap_eq_nil_iff.1 h _ hevent
      simp [Event.bindings, Event.values, hnone]
  | named =>
    have hd : Dictionary settings.stem [] := ⟨by simp, by simp⟩
    have hstart : (Registry.ofSettings settings).Labelled settings.stem [] [] :=
      ⟨Registry.named_ofSettings hstyle _, rfl, rfl⟩
    have hnone : events.flatMap Event.entries ⊆ [] := by
      rw [h]
      exact List.Subset.refl _
    have hmade := (hstart.takeAll hd hnone).1.made
    simp only [List.map_nil, List.not_mem_nil, not_false_eq_true, decide_true, List.filter_true, List.nil_append]
      at hmade
    rw [hmade, List.mapIdx_eq_zipIdx_map, List.map_map]
    exact List.zipIdx_map_fst 0 _

/-- **Values bound as text.** The values that a direct expression binds are its
constants, in the order in which they are written, each as text exactly when its
place compares it with JSON text. When no filter brings parameters of its own,
they are the bindings of the command. -/
theorem text_bindings (hdirect : ∀ x ∈ e.subterms, x.isDirect) (hok : e.compile table settings qualifier = .ok c) :
    let events := (Step.expression qualifier e).events table settings
    let bindings := e.constants.map fun o =>
      (⟨o.value, if o.place.comparesWithJsonText then some .text else none⟩ : Binding)
    c.parameters = ((Registry.ofSettings settings).takeAll events).parameters ∧
      events.flatMap Event.values = bindings ∧
      (events.flatMap Event.entries = [] → c.parameters.toList.map (·.2) = bindings) := by
  intro events bindings
  obtain ⟨hparameters, haccepted⟩ := Expr.registered_of_compile hok
  have hvalues : events.flatMap Event.values = bindings :=
    (values_slotEvents haccepted).trans (e.bindsConstants.term hdirect _ _ .elsewhere)
  exact ⟨hparameters, hvalues, fun h => by rw [hparameters, bindings_takeAll h, hvalues]⟩

end Compile

/-- Of a name inside a document, what follows its first letter if it is `x`, and
else whether its length is three. -/
def namedX : Expr :=
  let name := Expr.member none ["doc", "name"] .text
  .conditional (.binary .equal (.call .toLower (some name) []) (.unary .convert (.constant (.string "x"))))
    (.call .substring (some name) [.constant (.int 1)])
    (.binary .equal (.member none ["doc", "name", "Length"] .integer) (.constant (.int 3)))

theorem namedX_bindings :
    (∀ x ∈ namedX.subterms, x.isDirect) ∧ ∃ c, namedX.compile { name := "t" } {} none = .ok c ∧
      c.parameters.toList.map (·.2) = [⟨.string "x", some .text⟩, ⟨.int 1, none⟩, ⟨.int 3, none⟩] := by
  have hdirect : ∀ x ∈ namedX.subterms, x.isDirect := by decide
  obtain ⟨c, hc⟩ : ∃ c, namedX.compile { name := "t" } {} none = .ok c := ⟨_, rfl⟩
  exact ⟨hdirect, c, hc, (text_bindings hdirect hc).2.2 rfl⟩

/-! ## Negations -/

section Negation

variable {op : BinaryOp} {e negated : Expr} {value : Literal} {table : Table} {settings : Settings}
  {qualifier : Option String} {c : Command}

/-- The constant is the last slot of a comparison with a negation in it. -/
theorem slots_negated
    (hform : negated = .binary op (.unary .not e) (.constant value) ∨
      negated = .binary op e (.unary .not (.constant value)))
    (hnull : op.isEquality → value ≠ .null) (sc : Scope) (m : Mode) (beside : Bool) :
    ∃ before, (negated.emit sc m beside).term.slots = before ++ [Slot.value value (e.isJsonText false)] := by
  rcases hform with rfl | rfl
  · have hleft : (op.isEquality && (Expr.unary .not e).isNull) = false := Bool.and_false _
    have hright : (op.isEquality && (Expr.constant value).isNull) = false := by
      cases value <;> simp_all [Expr.isNull]
    refine ⟨((Expr.unary .not e).emit sc m.operand false).term.slots, ?_⟩
    rw [Expr.slots_binary, hleft, hright]
    rfl
  · have hright : (op.isEquality && (Expr.unary .not (.constant value)).isNull) = false := Bool.and_false _
    rw [Expr.slots_binary, hright, if_neg Bool.false_ne_true]
    by_cases hleft : op.isEquality && e.isNull
    · -- the null test of the negation: a null is no JSON text
      refine ⟨[], ?_⟩
      rw [if_pos hleft, isJsonText_of_isNull (Bool.and_eq_true_iff.1 hleft).2]
      rfl
    · refine ⟨(e.emit sc m.operand false).term.slots, ?_⟩
      rw [if_neg hleft]
      rfl

/-- **A negation is taken for what it negates.** In a comparison with a constant,
where what it is compared with or the constant itself is negated, the constant is
bound last, and as text exactly when it would be without the negation. -/
theorem negation_binds_text
    (hform : negated = .binary op (.unary .not e) (.constant value) ∨
      negated = .binary op e (.unary .not (.constant value)))
    (hnull : op.isEquality → value ≠ .null) (hok : negated.compile table settings qualifier = .ok c) :
    let events := (Step.expression qualifier negated).events table settings
    c.parameters = ((Registry.ofSettings settings).takeAll events).parameters ∧
      events.getLast? = some (.bound ⟨value, if e.isJsonText false then some .text else none⟩) := by
  intro events
  obtain ⟨hparameters, haccepted⟩ := Expr.registered_of_compile hok
  refine ⟨hparameters, ?_⟩
  obtain ⟨before, hslots⟩ := slots_negated hform hnull (.ofSettings table settings qualifier) {} false
  have hevents : events = slotEvents before ++ [.bound (boundAs value (e.isJsonText false))] := by
    show slotEvents _ = _
    rw [hslots] at haccepted ⊢
    exact slotEvents_append (fun s hs => haccepted s (List.mem_append_left _ hs)) _
  rw [hevents, List.getLast?_concat]
  rfl

end Negation

/-- The negation of a flag inside a document, compared with a value. -/
def negatedFlag : Expr :=
  .binary .equal (.unary .not (.member none ["doc", "done"] .boolean)) (.constant (.bool true))

theorem negatedFlag_bindings :
    ∃ c, negatedFlag.compile { name := "t" } {} none = .ok c ∧
      ((Step.expression none negatedFlag).events { name := "t" } {}).getLast? =
        some (.bound ⟨.bool true, some .text⟩) := by
  obtain ⟨c, hc⟩ : ∃ c, negatedFlag.compile { name := "t" } {} none = .ok c := ⟨_, rfl⟩
  exact ⟨c, hc, (negation_binds_text (.inl rfl) (by simp) hc).2⟩

/-- The negation is no text, and the value at its place is not compared with any,
but it is bound as text. -/
theorem negatedFlag_bound_as_text :
    negatedFlag.constants.map (·.binding) = [⟨.bool true, none⟩] ∧
      (negatedFlag.compile { name := "t" } {} none).toOption.map (·.text) =
        some "(NOT (\"t\".\"doc\"->>'done')) = @p0" ∧
      (negatedFlag.compile { name := "t" } {} none).toOption.map (·.parameters.toList) =
        some [("p0", ⟨.bool true, some .text⟩)] := by
  exact ⟨rfl, by decide +kernel, rfl⟩

end ParamQuery
