/-
Projections. A projection is its items, written one after another as each is
written on its own (`Session.expressions`); it only adds the names of the items
that are members (`Expr.named`). Whatever an item is, the mode that asks for
names is spent on the item itself: what stands in it is written as it is without
a projection around it (`Expr.settle_forLabels`).

So a name inside of an item is one that something in there writes: a projection
of a member outside of a conditional, or a source that counts groups
(`Expr.givesNames`).
-/
import ParamQuery.Proofs.OpenStatements
import ParamQuery.Proofs.EmitInline

namespace ParamQuery

open Sql

/-! ## Items and their names -/

/-- The name that a projection gives to an item: that of the member which the item
is, conversions left out. -/
def Expr.label? : Expr → Option String
  | .member _ path _ => some (memberName path)
  | .unary .convert e | .unary .typeAs e => e.label?
  | _ => none

/-- The text of an item behind which a projection writes its name, if it has one. -/
def Expr.named (e : Expr) (text : String) : String :=
  match e.label? with
  | some label => text ++ " AS " ++ quoteName label
  | none => text

/-- The texts of expressions that are compiled one after another, up to the first
one that is refused. -/
def Session.expressions (s : Session) (qualifier : Option String) :
    List Expr → Except CompileError (List String) × Session
  | [] => (.ok [], s)
  | e :: rest =>
    match s.expression qualifier e with
    | (.error err, s) => (.error err, s)
    | (.ok text, s) =>
      match s.expressions qualifier rest with
      | (.error err, s) => (.error err, s)
      | (.ok texts, s) => (.ok (text :: texts), s)

/-! ## Settling lists and names -/

theorem settleTerm_labelled (t : Term Slot) (label : String) :
    settleTerm (.labelled t label) = do
      let text ← settleTerm t
      return text ++ " AS " ++ quoteName label := by
  simp [settleTerm, Term.mapM, Term.walk, Term.render, Term.fragment, Token.render, String.append_assoc]

theorem render_separated_eq (separator : String) (fs : List (Fragment String)) :
    Fragment.render (Fragment.separated separator fs) = separator.intercalate (fs.map Fragment.render) := by
  induction fs with
  | nil => rfl
  | cons f fs ih =>
    cases fs with
    | nil => simp [Fragment.separated]
    | cons g fs =>
      have hcons : Fragment.separated separator (f :: g :: fs) =
        f ++ Token.text separator :: Fragment.separated separator (g :: fs) := rfl
      rw [hcons, Fragment.render_append, Fragment.render_cons, ih]
      simp [Token.render, String.append_assoc]

theorem mapTerms_render (ts : List (Term Slot)) :
    (do let ts ← mapTerms Slot.settle ts
        return ts.map Term.render) = ts.mapM settleTerm := by
  induction ts with
  | nil => rfl
  | cons t ts ih =>
    rw [List.mapM_cons, ← ih]
    simp [mapTerms, walkTerms, settleTerm, Term.mapM]

/-- A list is its items in turn. -/
theorem settleTerm_list (ts : List (Term Slot)) :
    settleTerm (.list ts) = do
      let texts ← ts.mapM settleTerm
      return ", ".intercalate texts := by
  have hrender (ts : List (Term String)) : (Term.list ts).render = ", ".intercalate (ts.map Term.render) := by
    rw [Term.render, Term.fragment, termFragments_eq_map, render_separated_eq, List.map_map]
    rfl
  rw [← mapTerms_render]
  simp [settleTerm, Term.mapM, Term.walk, mapTerms, hrender]

/-- What is done with each result can be done at the end. -/
theorem mapM_zipWith {α β γ : Type} (f : α → Naming β) (g : α → β → γ) (l : List α) :
    (l.mapM fun a => do return g a (← f a)) = do return List.zipWith g l (← l.mapM f) := by
  induction l with
  | nil => rfl
  | cons a l ih =>
    rw [List.mapM_cons, ih, List.mapM_cons]
    simp

/-! ## One item -/

/-- **The wish for names reaches no further than the item.** -/
theorem Expr.settle_forLabels (e : Expr) (sc : Scope) (beside : Bool) :
    settleTerm (e.emit sc (Mode.forLabels {}) beside).term = do
      return e.named (← settleTerm (e.emit sc {} beside).term) := by
  have hsame (t : Term Slot) : settleTerm t = settleTerm t >>= fun text => pure text := (bind_pure _).symm
  induction e using Expr.induction generalizing beside with
  | member root path type =>
    simp only [Expr.named, Expr.label?]
    cases path with
    | nil => rfl
    | cons base steps =>
      rw [← settleTerm_labelled]
      rfl
  | unary op operand ih =>
    cases op with
    | not => exact hsame _
    | convert | typeAs => exact ih beside
  | source s =>
    have hemit : s.emit sc (Mode.forLabels {}) beside = s.emit sc {} beside := by
      obtain ⟨typeName, members, own, _ | ⟨outer, inner⟩⟩ := s <;> rfl
    rw [Expr.emit, Expr.emit, hemit]
    exact hsame _
  | binary op left right => exact hsame _
  | subquery q => exact hsame _
  | conditional test ifTrue ifFalse => exact hsame _
  | constant value => exact hsame _
  | call method receiver arguments => exact hsame _
  | project items => exact hsame _

/-! ## Sessions -/

theorem Session.run_map {α β : Type} (s : Session) (x : Naming α) (g : α → β) :
    s.run (do return g (← x)) = ((s.run x).1.map g, (s.run x).2) := by
  simp only [Session.run, Naming.runOn_bind]
  rcases x.runOn s.registry with ⟨_ | _, _⟩ <;> rfl

theorem Session.run_bind {α β : Type} (s : Session) (x : Naming α) (k : α → Naming β) :
    s.run (x >>= k) = match x.runOn s.registry with
      | (.ok a, r) => { s with registry := r }.run (k a)
      | (.error e, r) => (.error e, { s with registry := r }) := by
  simp only [Session.run, Naming.runOn_bind]
  rcases x.runOn s.registry with ⟨_ | _, _⟩ <;> rfl

/-- Expressions are compiled in turn on the registry of the session. -/
theorem Session.expressions_eq (s : Session) (qualifier : Option String) (es : List Expr) :
    s.expressions qualifier es =
      s.run (es.mapM fun e => settleTerm (e.emit (.ofSettings s.table s.settings qualifier) {} false).term) := by
  induction es generalizing s with
  | nil => rfl
  | cons e es ih =>
    rw [Session.expressions, Session.expression_eq, List.mapM_cons, Session.run_bind, Session.run]
    rcases (settleTerm (e.emit (.ofSettings s.table s.settings qualifier) {} false).term).runOn s.registry with
      ⟨err | text, r⟩
    · rfl
    · simp only [ih { s with registry := r }]
      rw [Session.run_map]
      rcases Session.run { s with registry := r } _ with ⟨_ | _, _⟩ <;> rfl

/-- **A projection is its items in turn, each with its name.** -/
theorem Session.expression_project (s : Session) (qualifier : Option String) {items : List Expr} (h : items ≠ []) :
    s.expression qualifier (.project items) =
      ((s.expressions qualifier items).1.map fun texts => ", ".intercalate (List.zipWith Expr.named items texts),
        (s.expressions qualifier items).2) := by
  have hemit (sc : Scope) : ((Expr.project items).emit sc {} false).term =
      .list (items.map fun e => (e.emit sc (Mode.forLabels {}) false).term) := by
    rw [← emitEach_eq_map, Expr.emit, if_neg (by simpa using h)]
    rfl
  rw [Session.expression_eq, Session.expressions_eq, hemit, settleTerm_list, List.mapM_map,
    ← Session.run_map]
  congr 1
  simp only [Function.comp_def, Expr.settle_forLabels]
  rw [mapM_zipWith]
  simp

/-! ## Names inside of items -/

mutual
/-- Whether something in an expression gives names, `inCase` saying that it stands in
a conditional: a projection gives its members names unless it stands in one, and a
source that counts groups always gives its columns names. -/
def Expr.givesNames : Expr → Bool → Bool
  | .source s, _ => s.groupJoin.isSome
  | .subquery q, _ => q.givesNames
  | .binary _ left right, inCase => left.givesNames inCase || right.givesNames inCase
  | .conditional test ifTrue ifFalse, _ =>
    test.givesNames true || ifTrue.givesNames true || ifFalse.givesNames true
  | .constant _, _ => false
  | .member root _ _, _ => root.any (·.groupJoin.isSome)
  | .call _ receiver arguments, inCase => optionGivesNames receiver inCase || listGivesNames arguments inCase
  | .project items, inCase => !inCase && items.any (·.label?.isSome) || listGivesNames items inCase
  | .unary _ operand, inCase => operand.givesNames inCase
/-- Whether an expression that may be missing gives names. -/
def optionGivesNames : Option Expr → Bool → Bool
  | none, _ => false
  | some e, inCase => e.givesNames inCase
/-- Whether one of some expressions gives names. -/
def listGivesNames : List Expr → Bool → Bool
  | [], _ => false
  | e :: rest, inCase => e.givesNames inCase || listGivesNames rest inCase
/-- Whether a key of the joins gives names. -/
def joinsGiveNames : List Join → Bool
  | [] => false
  | ⟨_, _, outer, inner⟩ :: rest => outer.givesNames false || inner.givesNames false || joinsGiveNames rest
/-- Whether a sort key gives names. -/
def sortKeysGiveNames : List SortKey → Bool
  | [] => false
  | ⟨key, _⟩ :: rest => key.givesNames false || sortKeysGiveNames rest
/-- Whether a query gives names. One that counts its rows does not write its
select list. -/
def Query.givesNames : Query → Bool
  | ⟨source, selector, joins, conditions, _, groupBy, orderBy, _, _, _, count⟩ =>
    !count && (selector.isNone && source.groupJoin.isSome || optionGivesNames selector false) ||
      joinsGiveNames joins || listGivesNames conditions false || listGivesNames groupBy false ||
      sortKeysGiveNames orderBy
end

theorem listGivesNames_eq_false {es : List Expr} {inCase : Bool} :
    listGivesNames es inCase = false ↔ ∀ e ∈ es, e.givesNames inCase = false := by
  induction es with
  | nil => simp [listGivesNames]
  | cons e es ih => simp [listGivesNames, ih]

theorem optionGivesNames_eq_false {o : Option Expr} {inCase : Bool} :
    optionGivesNames o inCase = false ↔ ∀ e ∈ o, e.givesNames inCase = false := by
  cases o <;> simp [optionGivesNames]

theorem joinsGiveNames_eq_false {js : List Join} :
    joinsGiveNames js = false ↔ ∀ j ∈ js, j.outer.givesNames false = false ∧ j.inner.givesNames false = false := by
  induction js with
  | nil => simp [joinsGiveNames]
  | cons j js ih =>
    obtain ⟨kind, table, outer, inner⟩ := j
    simp [joinsGiveNames, ih]

theorem sortKeysGiveNames_eq_false {ks : List SortKey} :
    sortKeysGiveNames ks = false ↔ ∀ k ∈ ks, k.key.givesNames false = false := by
  induction ks with
  | nil => simp [sortKeysGiveNames]
  | cons k ks ih =>
    obtain ⟨key, direction⟩ := k
    simp [sortKeysGiveNames, ih]

namespace Sql

variable {β : Type}

/-- No token of the fragment gives a name. What fills its slots is not looked
into. -/
def Fragment.Unlabelled (f : Fragment β) : Prop := Token.text " AS " ∉ f

/-- No token that the term is written as gives a name. -/
def Term.Unlabelled (t : Term β) : Prop := t.fragment.Unlabelled

namespace Fragment

@[simp] theorem unlabelled_nil : Unlabelled ([] : Fragment β) := List.not_mem_nil

@[simp] theorem unlabelled_text (s : String) (f : Fragment β) :
    Unlabelled (.text s :: f) ↔ s ≠ " AS " ∧ f.Unlabelled := by
  simp [Unlabelled, eq_comm]

@[simp] theorem unlabelled_name (s : String) (f : Fragment β) : Unlabelled (.name s :: f) ↔ f.Unlabelled := by
  simp [Unlabelled]

@[simp] theorem unlabelled_key (s : String) (f : Fragment β) : Unlabelled (.key s :: f) ↔ f.Unlabelled := by
  simp [Unlabelled]

@[simp] theorem unlabelled_slot (b : β) (f : Fragment β) : Unlabelled (.slot b :: f) ↔ f.Unlabelled := by
  simp [Unlabelled]

@[simp] theorem unlabelled_append (f g : Fragment β) : (f ++ g).Unlabelled ↔ f.Unlabelled ∧ g.Unlabelled := by
  simp [Unlabelled]

theorem unlabelled_flatMap {α : Type} {l : List α} {f : α → Fragment β} (h : ∀ a ∈ l, (f a).Unlabelled) :
    Unlabelled (l.flatMap f) := by
  intro hmem
  obtain ⟨a, ha, hmem⟩ := List.mem_flatMap.1 hmem
  exact h a ha hmem

theorem unlabelled_splice {γ : Type} {f : Fragment γ} {g : γ → Fragment β} (h : f.Unlabelled)
    (hg : ∀ b, (g b).Unlabelled) : (splice g f).Unlabelled := by
  induction f with
  | nil => exact unlabelled_nil
  | cons t f ih =>
    rw [splice_cons, unlabelled_append]
    cases t with
    | slot b => exact ⟨hg b, ih ((unlabelled_slot _ _).1 h)⟩
    | text s =>
      obtain ⟨hs, hf⟩ := (unlabelled_text _ _).1 h
      exact ⟨by simpa [Token.splice] using hs, ih hf⟩
    | name s | key s => exact ⟨by simp [Token.splice], ih (by simpa using h)⟩

@[simp] theorem unlabelled_parenthesized (f : Fragment β) : (parenthesized f).Unlabelled ↔ f.Unlabelled := by
  simp [parenthesized]

@[simp] theorem unlabelled_traversal (steps : List String) : (traversal steps : Fragment β).Unlabelled := by
  induction steps with
  | nil => simp [traversal]
  | cons step steps ih => cases steps <;> simp_all [traversal]

theorem unlabelled_separated {s : String} (hs : s ≠ " AS ") {fs : List (Fragment β)} (h : ∀ f ∈ fs, f.Unlabelled) :
    (separated s fs).Unlabelled := by
  induction fs with
  | nil => simp [separated]
  | cons f fs ih =>
    have hf := h f (by simp)
    have hfs := ih fun g hg => h g (by simp [hg])
    cases fs with
    | nil => exact hf
    | cons g fs => exact (unlabelled_append _ _).2 ⟨hf, (unlabelled_text _ _).2 ⟨hs, hfs⟩⟩

theorem unlabelled_conjunction {fs : List (Fragment β)} (h : ∀ f ∈ fs, f.Unlabelled) :
    (separated " AND " (fs.map parenthesized)).Unlabelled := by
  refine unlabelled_separated (by simp) fun f hf => ?_
  obtain ⟨g, hg, rfl⟩ := List.mem_map.1 hf
  exact (unlabelled_parenthesized g).2 (h g hg)

end Fragment

open Fragment

theorem guardFragment_unlabelled {fs : List (Fragment β)} (h : ∀ f ∈ fs, f.Unlabelled) :
    (guardFragment fs).Unlabelled := by
  match fs with
  | [] => simp [guardFragment, separated]
  | [f] => exact h f (by simp)
  | f :: g :: fs => exact unlabelled_conjunction h

theorem repr_ne (n : Nat) : n.repr ≠ " AS " := by
  intro h
  have hspace : ' ' ∈ (toString n).toList := by simp [h]
  exact absurd (isDigit_of_mem_toString hspace) (by decide)

theorem limitText_ne (n : Nat) : limitText n ≠ " AS " := by
  unfold limitText
  split
  · simp
  · exact repr_ne n

theorem Frame.unlabelled_listClause (keyword : String) (hk : keyword ≠ " AS ") {fs : List (Fragment β)}
    (h : ∀ f ∈ fs, f.Unlabelled) : (listClause keyword fs).Unlabelled := by
  unfold listClause
  split
  · exact unlabelled_nil
  · exact (unlabelled_text _ _).2 ⟨hk, unlabelled_separated (by simp) h⟩

theorem Frame.unlabelled_whereClause {fs : List (Fragment β)} (h : ∀ f ∈ fs, f.Unlabelled) :
    (whereClause fs).Unlabelled := by
  match fs with
  | [] => exact unlabelled_nil
  | [f] => exact (unlabelled_text _ _).2 ⟨by simp, h f (by simp)⟩
  | f :: g :: fs => exact (unlabelled_text _ _).2 ⟨by simp, unlabelled_conjunction h⟩

/-- A statement gives no names beside those in its clauses. -/
theorem Select.unlabelled_statement {s : Select β} (h : s.All Term.Unlabelled)
    (hjoins : ∀ j ∈ s.joins, j.keyword ≠ " AS ") (horder : ∀ k ∈ s.orderBy, k.keyword ≠ " AS ") :
    s.frame.statement.Unlabelled := by
  have hterms {ts : List (Term β)} (h : ∀ t ∈ ts, t.Unlabelled) : ∀ f ∈ ts.map Term.fragment, f.Unlabelled := by
    intro f hf
    obtain ⟨t, ht, rfl⟩ := List.mem_map.1 hf
    exact h t ht
  have hsource : s.sourceFragment.Unlabelled := by
    unfold Select.sourceFragment
    split <;> simp [qualified]
  have hjoin : Unlabelled ((s.joins.map JoinOn.fragment).flatMap (.text " " :: ·)) := by
    refine unlabelled_flatMap fun f hf => ?_
    obtain ⟨j, hj, rfl⟩ := List.mem_map.1 hf
    obtain ⟨ho, hi⟩ := h.joins j hj
    simpa [JoinOn.fragment, hjoins j hj] using ⟨ho, hi⟩
  have hsort : ∀ f ∈ s.orderBy.map SortTerm.fragment, f.Unlabelled := by
    intro f hf
    obtain ⟨k, hk, rfl⟩ := List.mem_map.1 hf
    have hkey : k.key.fragment.Unlabelled := h.orderBy k hk
    simpa [SortTerm.fragment, horder k hk] using hkey
  have hitems : s.items.fragment.Unlabelled := h.items
  have hwhere := Frame.unlabelled_whereClause (hterms h.conditions)
  have hgroup := Frame.unlabelled_listClause " GROUP BY " (by simp) (hterms h.groupBy)
  have horder := Frame.unlabelled_listClause " ORDER BY " (by simp) hsort
  rw [Select.frame_eq, Frame.statement]
  simp only [List.cons_append, unlabelled_text, unlabelled_append, hitems, hsource, hjoin, hwhere, hgroup, horder]
  cases s.distinct <;> cases s.limit <;> cases s.offset <;> simp [limitText_ne, repr_ne]

theorem Term.unlabelled_list {ts : List (Term β)} (h : ∀ t ∈ ts, t.Unlabelled) : (Term.list ts).Unlabelled := by
  rw [Term.Unlabelled, Term.fragment, termFragments_eq_map]
  refine unlabelled_separated (by simp) fun f hf => ?_
  obtain ⟨t, ht, rfl⟩ := List.mem_map.1 hf
  exact h t ht

theorem Term.unlabelled_operation {left right : Term β} (op : Infix) (hl : left.Unlabelled) (hr : right.Unlabelled) :
    (Term.operation left op right).Unlabelled := by
  have hop : op.padded ≠ " AS " := by
    cases op with
    | operator op => cases op <;> decide
    | concat => decide
  rw [Term.Unlabelled, Term.fragment, unlabelled_append, unlabelled_text]
  exact ⟨hl, hop, hr⟩

theorem Term.unlabelled_call (method : Method) (n : Nat) {ts : List (Term β)} (h : ∀ t ∈ ts, t.Unlabelled) :
    (Term.call (.ofMethod method n) ts).Unlabelled := by
  rw [Term.Unlabelled, Term.fragment, termFragments_eq_map, Template.expand_eq_splice, Method.fragment_ofMethod,
    Fragment.splice_map]
  have hlayout : (method.layout n).Unlabelled := by
    cases method <;> simp only [Method.layout]
    all_goals try split
    all_goals simp
  refine unlabelled_splice hlayout fun i => ?_
  simp only [List.getD_eq_getElem?_getD, List.getElem?_map]
  cases hi : ts[i]? with
  | none => exact unlabelled_nil
  | some t => exact h t (List.mem_of_getElem? hi)

theorem Term.unlabelled_caseWhen {arms : List (Arm β)} {otherwise : Term β}
    (h : ∀ a ∈ arms, (∀ t ∈ a.guards, t.Unlabelled) ∧ a.value.Unlabelled) (ho : otherwise.Unlabelled) :
    (Term.caseWhen arms otherwise).Unlabelled := by
  have harms : Fragment.Unlabelled (arms.flatMap Arm.fragment) := by
    refine unlabelled_flatMap fun a ha => ?_
    obtain ⟨hguards, hvalue⟩ := h a ha
    have hguard : (guardFragment (a.guards.map Term.fragment)).Unlabelled := by
      refine guardFragment_unlabelled fun f hf => ?_
      obtain ⟨t, ht, rfl⟩ := List.mem_map.1 hf
      exact hguards t ht
    simpa [Arm.fragment] using ⟨hguard, hvalue⟩
  have ho : otherwise.fragment.Unlabelled := ho
  rw [Term.Unlabelled, Term.fragment, armFragments_eq_flatMap]
  simpa [harms] using ho

end Sql

/-! ## Emission -/

theorem caseTerm_unlabelled {d : Decision (Term Slot)} (h : d.All Term.Unlabelled) : (caseTerm d).Unlabelled := by
  cases d with
  | leaf t => exact h
  | test condition ifTrue ifFalse =>
    obtain ⟨harms, hvalue⟩ := h.flattenUnder (List.forall_mem_nil _)
    refine Term.unlabelled_caseWhen (fun a ha => ?_) hvalue
    obtain ⟨arm, harm, rfl⟩ := List.mem_map.1 ha
    exact harms arm harm

theorem parenIf_unlabelled {t : Term Slot} (wrap : Bool) (h : t.Unlabelled) : (parenIf wrap t).Unlabelled := by
  cases wrap with
  | false => exact h
  | true => exact (Fragment.unlabelled_parenthesized _).2 h

theorem lengths_unlabelled {t : Term Slot} (n : Nat) (h : t.Unlabelled) : (lengths n t).Unlabelled := by
  induction n with
  | zero => exact h
  | succ n ih =>
    have hinner : (lengths n t).fragment.Unlabelled := ih
    simpa [lengths, Term.Unlabelled, Term.fragment] using hinner

theorem sourceTerm_unlabelled (table : String) (columns : List (String × String)) :
    (sourceTerm table columns).Unlabelled := by
  unfold sourceTerm
  split
  · simp [Term.Unlabelled, Term.fragment]
  · refine Term.unlabelled_list fun t ht => ?_
    obtain ⟨c, -, rfl⟩ := List.mem_map.1 ht
    simp [Term.Unlabelled, Term.fragment]

theorem columnTerm_unlabelled (sc : Scope) (own : Option String) {qualifier : Term Slot} (path : List String)
    (h : qualifier.Unlabelled) : (columnTerm sc own qualifier path).Unlabelled := by
  have hcolumn (name : String) (steps : List String) : (Term.column qualifier name steps).Unlabelled := by
    have hq : qualifier.fragment.Unlabelled := h
    simpa [Term.Unlabelled, Term.fragment] using hq
  unfold columnTerm
  split
  · simp [Term.Unlabelled, Term.fragment]
  · split
    · exact hcolumn _ _
    · split
      · refine Term.unlabelled_list fun t ht => ?_
        simp only [List.mem_cons, List.not_mem_nil, or_false] at ht
        rcases ht with rfl | rfl
        · exact h
        · simp [Term.Unlabelled, Term.fragment]
      · exact hcolumn _ _

theorem Source.emit_unlabelled {s : Source} (h : s.groupJoin = none) (sc : Scope) (m : Mode) (beside : Bool) :
    (s.emit sc m beside).term.Unlabelled := by
  obtain ⟨typeName, members, own, _ | g⟩ := s
  · simp only [Source.emit]
    split
    · simp [Term.Unlabelled, Term.fragment, Emitted.term, Emitted.ofTerm, caseTerm]
    · exact sourceTerm_unlabelled _ _
  · cases h

/-- A mode in which the item itself is not given a name. -/
def Mode.Leaves (m : Mode) (e : Expr) : Prop := m.labelling → m.insideCase = false → e.label? = none

theorem Mode.leaves_operand (m : Mode) (e : Expr) : m.operand.Leaves e := by
  intro h
  cases h

/-- What an expression is written as in any mode gives no names, if the expression
does not and none is given to itself. -/
def Expr.StaysUnlabelled (e : Expr) : Prop :=
  ∀ (sc : Scope) (m : Mode) (beside : Bool), e.givesNames m.insideCase = false → m.Leaves e →
    (e.emit sc m beside).tree.All Term.Unlabelled

theorem Expr.StaysUnlabelled.term {e : Expr} (h : e.StaysUnlabelled) (sc : Scope) {m : Mode} (beside : Bool)
    (hnames : e.givesNames m.insideCase = false) (hm : m.Leaves e) : (e.emit sc m beside).term.Unlabelled :=
  caseTerm_unlabelled (h sc m beside hnames hm)

theorem emitEach_unlabelled {es : List Expr} (h : ∀ e ∈ es, e.StaysUnlabelled) {m : Mode}
    (hnames : listGivesNames es m.insideCase = false) (hm : ∀ e ∈ es, m.Leaves e) (sc : Scope) (beside : Bool) :
    ∀ t ∈ emitEach es sc m beside, t.Unlabelled := by
  intro t ht
  rw [emitEach_eq_map] at ht
  obtain ⟨e, he, rfl⟩ := List.mem_map.1 ht
  exact (h e he).term sc beside (listGivesNames_eq_false.1 hnames e he) (hm e he)

theorem Mode.leaves_plain (e : Expr) : Mode.Leaves {} e := by
  intro h
  cases h

theorem JoinKind.keyword_ne (kind : JoinKind) : kind.keyword ≠ " AS " := by
  cases kind <;> decide

theorem SortDirection.keyword_ne (direction : SortDirection) : direction.keyword ≠ " AS " := by
  cases direction <;> decide

theorem Query.emit_unlabelled {q : Query} (h : q.All Expr.StaysUnlabelled) (hnames : q.givesNames = false)
    (sc : Scope) : (q.emit sc).frame.statement.Unlabelled := by
  obtain ⟨source, selector, joins, conditions, filters, groupBy, orderBy, limit, offset, distinct, count⟩ := q
  simp only [Query.givesNames, Bool.or_eq_false_iff, Bool.and_eq_false_iff, joinsGiveNames_eq_false,
    sortKeysGiveNames_eq_false, optionGivesNames_eq_false, listGivesNames_eq_false] at hnames
  obtain ⟨⟨⟨⟨hitems, hjoins⟩, hconditions⟩, hgroupBy⟩, horderBy⟩ := hnames
  have hterm {e : Expr} (he : e.StaysUnlabelled) (hn : e.givesNames false = false) (sc : Scope) :
      (e.emit sc {} false).term.Unlabelled := he.term sc false hn (Mode.leaves_plain e)
  rw [Query.emit_eq]
  refine Select.unlabelled_statement ⟨?_, ?_, ?_, ?_, ?_⟩ ?_ ?_
  · simp only [Query.emitItems]
    split
    · simp [Term.Unlabelled, Term.fragment]
    · rename_i hcount
      simp only [hcount, Bool.not_false, Bool.true_eq_false, false_or] at hitems
      cases selector with
      | none => exact source.emit_unlabelled (by simpa using hitems.1) _ _ _
      | some e => exact hterm (h.selector e rfl) (hitems.2 e rfl) _
  · simp only [List.forall_mem_map]
    exact fun j hj => ⟨hterm (h.joins j hj).1 (hjoins j hj).1 _, hterm (h.joins j hj).2 (hjoins j hj).2 _⟩
  · simp only [List.forall_mem_append, List.forall_mem_map]
    refine ⟨fun e he => hterm (h.conditions e he) (hconditions e he) _, fun f _ => ?_⟩
    simp [Term.Unlabelled, Term.fragment]
  · simp only [List.forall_mem_map]
    exact fun e he => hterm (h.groupBy e he) (hgroupBy e he) _
  · simp only [List.forall_mem_map]
    exact fun k hk => hterm (h.orderBy k hk) (horderBy k hk) _
  · simp only [List.forall_mem_map]
    exact fun j _ => j.kind.keyword_ne
  · simp only [List.forall_mem_map]
    exact fun k _ => k.direction.keyword_ne

theorem binary_unlabelled {op : BinaryOp} {left right : Expr} (hl : left.StaysUnlabelled)
    (hr : right.StaysUnlabelled) : (Expr.binary op left right).StaysUnlabelled := by
  intro sc m beside hnames _
  simp only [Expr.givesNames, Bool.or_eq_false_iff] at hnames
  have hleft := hl.term sc false (m := m.operand) hnames.1 (m.leaves_operand _)
  have hright (beside : Bool) := hr.term sc beside (m := m.operand) hnames.2 (m.leaves_operand _)
  have htest {t : Term Slot} (negated : Bool) (h : t.Unlabelled) : (Term.nullTest t negated).Unlabelled := by
    have ht : t.fragment.Unlabelled := h
    cases negated <;> simpa [Term.Unlabelled, Term.fragment] using ht
  simp only [Expr.emit]
  split
  · exact htest _ (parenIf_unlabelled _ hleft)
  · split
    · exact htest _ (parenIf_unlabelled _ (hright false))
    · exact Term.unlabelled_operation _ (parenIf_unlabelled _ hleft) (parenIf_unlabelled _ (hright _))

theorem call_unlabelled {method : Method} {receiver : Option Expr} {arguments : List Expr}
    (hr : ∀ e ∈ receiver, e.StaysUnlabelled) (ha : ∀ e ∈ arguments, e.StaysUnlabelled) :
    (Expr.call method receiver arguments).StaysUnlabelled := by
  intro sc m beside hnames _
  simp only [Expr.givesNames, Bool.or_eq_false_iff] at hnames
  have hargs := emitEach_unlabelled ha (m := m.operand) hnames.2 (fun e _ => m.leaves_operand e) sc
  simp only [Expr.emit]
  split
  · refine Term.unlabelled_call _ _ fun t ht => ?_
    rw [List.mem_singleton.1 ht]
    exact Term.unlabelled_list (hargs false)
  · cases receiver with
    | none => exact Term.unlabelled_call _ _ (hargs false)
    | some r =>
      refine Term.unlabelled_call _ _ fun t ht => ?_
      rcases List.mem_cons.1 ht with rfl | ht
      · exact (hr r rfl).term sc false (m := m.operand) hnames.1 (m.leaves_operand r)
      · exact hargs _ t ht

/-- **Names come from where they are given.** -/
theorem Expr.staysUnlabelled (e : Expr) : e.StaysUnlabelled := by
  induction e using Expr.induction with
  | source s _ =>
    intro sc m beside hnames _
    have hsource := s.emit_unlabelled (by simpa [Expr.givesNames] using hnames) sc m beside
    rw [Expr.emit, Source.tree_emit]
    exact hsource
  | subquery q ih =>
    intro sc m beside hnames _
    exact (Fragment.unlabelled_parenthesized _).2 (q.emit_unlabelled ih hnames sc)
  | binary op left right ihl ihr => exact binary_unlabelled ihl ihr
  | conditional test ifTrue ifFalse ihc iht ihf =>
    intro sc m beside hnames _
    simp only [Expr.givesNames, Bool.or_eq_false_iff] at hnames
    -- no mode that a conditional hands on asks for names
    have hin (e : Expr) : m.inCase.Leaves e := fun h => by cases h
    exact ⟨ihc.term sc false hnames.1.1 (hin _), iht sc _ _ hnames.1.2 (hin _), ihf sc _ _ hnames.2 (hin _)⟩
  | constant value =>
    intro sc m beside _ _
    simp [Expr.emit, Emitted.ofTerm, Decision.All, Term.Unlabelled, Term.fragment]
  | member root path type _ =>
    intro sc m beside hnames hm
    have hroot : (emitRoot root sc m.forMemberRoot beside).Unlabelled := by
      cases root with
      | none => simp [emitRoot, Term.Unlabelled, Term.fragment]
      | some s => exact s.emit_unlabelled (by simpa [Expr.givesNames] using hnames) sc _ beside
    simp only [Expr.emit]
    split
    · simp [Emitted.ofTerm, Decision.All, Term.Unlabelled, Term.fragment]
    · have hlabel : ¬(m.labelling && !m.insideCase) := by
        intro h
        simp only [Bool.and_eq_true, Bool.not_eq_true'] at h
        cases hm h.1 h.2
      rw [memberTerm, labelIf, if_neg hlabel]
      exact lengths_unlabelled _ (columnTerm_unlabelled sc _ _ hroot)
  | call method receiver arguments ihr iha => exact call_unlabelled ihr iha
  | project items ih =>
    intro sc m beside hnames _
    simp only [Expr.givesNames, Bool.or_eq_false_iff, Bool.and_eq_false_iff] at hnames
    simp only [Expr.emit]
    split
    · simp [Emitted.ofTerm, Decision.All, Term.Unlabelled, Term.fragment]
    · -- its items are asked for names, which members alone would give
      have hitems : ∀ e ∈ items, m.operand.forLabels.Leaves e := by
        intro e he _ hcase
        have hcase : m.insideCase = false := hcase
        rcases hnames.1 with h | h
        · rw [hcase] at h
          cases h
        · simpa using List.any_eq_false.1 h e he
      exact Term.unlabelled_list (emitEach_unlabelled ih (m := m.operand.forLabels) hnames.2 hitems sc false)
  | unary op operand ih =>
    intro sc m beside hnames hm
    cases op with
    | not =>
      have hoperand := ih.term sc beside (m := m.operand) hnames (m.leaves_operand _)
      have hfragment : (operand.emit sc m.operand beside).term.fragment.Unlabelled := hoperand
      simpa [Expr.emit, Emitted.ofTerm, Decision.All, Term.Unlabelled, Term.fragment] using hfragment
    | convert | typeAs => exact ih.term sc beside hnames hm

/-! ## Texts -/

/-- The text of an expression that gives no names is that of its tokens, the slots
filled in, and none of them gives a name. -/
theorem Session.expression_unlabelled {e : Expr} (h : e.givesNames false = false) {s s' : Session}
    {qualifier : Option String} {text : String} (hrun : s.expression qualifier e = (.ok text, s')) :
    ∃ f : Fragment (Slot × String),
      f.map (Token.map Prod.fst) = (e.emit (.ofSettings s.table s.settings qualifier) {} false).term.fragment ∧
        text = Fragment.render (f.map (Token.map Prod.snd)) ∧ f.Unlabelled := by
  have hplain := e.staysUnlabelled.term (.ofSettings s.table s.settings qualifier) false h (Mode.leaves_plain e)
  rw [Session.expression_eq] at hrun
  obtain ⟨htext, -⟩ := Prod.mk.inj hrun
  obtain ⟨u, hu, -, rfl⟩ := settleTerm_eq_ok (Prod.ext htext rfl)
  rw [← hu, Term.Unlabelled, Term.fragment_map] at hplain
  refine ⟨u.fragment, ?_, ?_, fun hmem => hplain (List.mem_map_of_mem (f := Token.map Prod.fst) hmem)⟩
  · rw [← hu, Term.fragment_map]
  · rw [Term.render, Term.fragment_map]

/-- **Projections are compositional.** On every session a projection is what its
items are when they are compiled in turn, in text, in parameters and in what is
refused, each item that is a member with its name behind it. Inside of an item a
name is written only by what gives names in there: a projection outside of a
conditional, or a source that counts groups.

That none is written is said of the tokens of the item. The slots among them, which
are its parameters and its whole filters, are set apart: the names that a caller
gives to the parameters of a filter are in its text as they are. -/
theorem projection_composes (s : Session) (qualifier : Option String) {items : List Expr} (h : items ≠ []) :
    s.expression qualifier (.project items) =
        ((s.expressions qualifier items).1.map fun texts => ", ".intercalate (List.zipWith Expr.named items texts),
          (s.expressions qualifier items).2) ∧
      ∀ e ∈ items, e.givesNames false = false → ∀ (before after : Session) (text : String),
        before.expression qualifier e = (.ok text, after) →
        ∃ f : Fragment (Slot × String),
          f.map (Token.map Prod.fst) =
              (e.emit (.ofSettings before.table before.settings qualifier) {} false).term.fragment ∧
            text = Fragment.render (f.map (Token.map Prod.snd)) ∧ f.Unlabelled :=
  ⟨s.expression_project qualifier h, fun _ _ hnames _ _ _ hrun => Session.expression_unlabelled hnames hrun⟩

/-- A converted member, a comparison, a call and a conditional around a projection. -/
def mixedItems : List Expr :=
  [.unary .convert (.member none ["doc", "x"] .unknown),
    .binary .equal (.constant (.int 7)) (.member none ["a"] .unknown),
    .call .toUpper (some (.member none ["b"] .unknown)) [],
    .conditional (.binary .greaterThan (.member none ["c"] .unknown) (.constant (.int 2)))
      (.project [.member none ["d"] .unknown]) (.constant (.int 3))]

/-- Only the member is given its name. -/
theorem mixedItems_projected :
    mixedItems ≠ [] ∧ (∀ e ∈ mixedItems, e.givesNames false = false) ∧
      ((Session.start { name := "t" } {}).expression none (.project mixedItems)).1 =
        .ok ("\"t\".\"doc\"->>'x' AS \"x\", @p0 = \"t\".\"a\", UPPER(\"t\".\"b\"), " ++
          "CASE WHEN \"t\".\"c\" > @p1 THEN \"t\".\"d\" ELSE @p2 END") := by
  have hne : mixedItems ≠ [] := List.cons_ne_nil _ _
  have hcomposes := (projection_composes (Session.start { name := "t" } {}) none hne).1
  refine ⟨hne, by decide, ?_⟩
  rw [hcomposes]
  decide +kernel

/-- A projection in an operator gives its member a name inside of the operator. -/
theorem projectedOperand_named :
    ((Expr.project [.binary .equal (.project [.member none ["a"] .unknown]) (.constant (.int 1))]).compile
      { name := "t" } {} none).toOption.map (·.text) = some "\"t\".\"a\" AS \"a\" = @p0" := by
  decide +kernel

end ParamQuery
