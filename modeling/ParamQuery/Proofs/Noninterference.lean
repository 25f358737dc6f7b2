/-
Literals never reach the text of a command. Two queries that differ only in
the values of their constants, each of the same type, and in the values of
their filters compile alike (`compile_noninterference`): both fail with the
same error, or both give the same text, the same parameter names in the same
order and the same type overrides.

The proof blanks: `Slot.blank` takes the literal out of a slot. Alike queries
have the same blanked statement (`Query.Alike.emit`), and settling commutes
with blanking (`Slot.settle_simulates`), so that what a compilation gives, up to
the bound values, is a function of the blanked statement alone.
-/
import ParamQuery.Proofs.ExprFacts
import ParamQuery.Proofs.FilterFacts
import ParamQuery.Proofs.NamingFacts
import Mathlib.Data.List.Forall2

namespace ParamQuery

/-! ## Queries that differ in literals -/

mutual
/-- The same filter, up to the values of its parameters. -/
def Filter.Alike : Filter → Filter → Prop
  | .compare p o v, .compare q r w => p = q ∧ o = r ∧ v.name = w.name
  | .like p v, .like q w => p = q ∧ v.name = w.name
  | .isNull p a, .isNull q b => p = q ∧ a = b
  | .between p l h, .between q m i => p = q ∧ l.name = m.name ∧ h.name = i.name
  | .and xs, .and ys => alikeFilters xs ys
  | .or xs, .or ys => alikeFilters xs ys
  | .not x, .not y => x.Alike y
  | _, _ => False
/-- Filters that are alike one by one. -/
def alikeFilters : List Filter → List Filter → Prop
  | [], [] => True
  | x :: xs, y :: ys => x.Alike y ∧ alikeFilters xs ys
  | _, _ => False
end

mutual
/-- The same expression, up to the values of its constants, whose types are the
same, and of its filters. -/
def Expr.Alike : Expr → Expr → Prop
  | .source s, .source t => s.Alike t
  | .subquery p, .subquery q => p.Alike q
  | .binary o l r, .binary p m s => o = p ∧ l.Alike m ∧ r.Alike s
  | .conditional t a b, .conditional u c d => t.Alike u ∧ a.Alike c ∧ b.Alike d
  | .constant v, .constant w => v.valueType = w.valueType
  | .member r p t, .member s q u => alikeRoots r s ∧ p = q ∧ t = u
  | .call m r as, .call n s bs => m = n ∧ alikeOptions r s ∧ alikeExprs as bs
  | .project as, .project bs => alikeExprs as bs
  | .unary o e, .unary p f => o = p ∧ e.Alike f
  | _, _ => False
/-- The same source, with keys that are alike. -/
def Source.Alike : Source → Source → Prop
  | ⟨n, ms, t, g⟩, ⟨n', ms', t', g'⟩ => n = n' ∧ ms = ms' ∧ t = t' ∧ alikeGroups g g'
/-- The same query, up to the values of its constants, whose types are the
same, and of its filters. -/
def Query.Alike : Query → Query → Prop
  | ⟨s, sel, js, cs, fs, gs, os, lim, off, dis, cnt⟩,
    ⟨s', sel', js', cs', fs', gs', os', lim', off', dis', cnt'⟩ =>
    s.Alike s' ∧ alikeOptions sel sel' ∧ alikeJoins js js' ∧ alikeExprs cs cs' ∧
      alikeFilters fs fs' ∧ alikeExprs gs gs' ∧ alikeSortKeys os os' ∧ lim = lim' ∧ off = off' ∧
      dis = dis' ∧ cnt = cnt'
/-- Group joins whose keys are alike, or none on both sides. -/
def alikeGroups : Option GroupJoin → Option GroupJoin → Prop
  | none, none => True
  | some ⟨o, i⟩, some ⟨p, j⟩ => o.Alike p ∧ i.Alike j
  | _, _ => False
/-- Sources that are alike, or none on both sides. -/
def alikeRoots : Option Source → Option Source → Prop
  | none, none => True
  | some s, some t => s.Alike t
  | _, _ => False
/-- Expressions that are alike, or none on both sides. -/
def alikeOptions : Option Expr → Option Expr → Prop
  | none, none => True
  | some e, some f => e.Alike f
  | _, _ => False
/-- Expressions that are alike one by one. -/
def alikeExprs : List Expr → List Expr → Prop
  | [], [] => True
  | e :: es, f :: fs => e.Alike f ∧ alikeExprs es fs
  | _, _ => False
/-- The same joins, with keys that are alike. -/
def alikeJoins : List Join → List Join → Prop
  | [], [] => True
  | ⟨k, t, o, i⟩ :: js, ⟨k', t', o', i'⟩ :: ks =>
    (k = k' ∧ t = t' ∧ o.Alike o' ∧ i.Alike i') ∧ alikeJoins js ks
  | _, _ => False
/-- Sort keys that are alike one by one, in the same directions. -/
def alikeSortKeys : List SortKey → List SortKey → Prop
  | [], [] => True
  | ⟨e, d⟩ :: ks, ⟨f, d'⟩ :: ls => (e.Alike f ∧ d = d') ∧ alikeSortKeys ks ls
  | _, _ => False
end

/-- Two compilations with the same outcome: the same error, or commands that
agree in everything but the values they bind. -/
def SameOutcome : Except CompileError Command → Except CompileError Command → Prop
  | .error e, .error e' => e = e'
  | .ok c, .ok d => c.text = d.text ∧ c.parameters.names = d.parameters.names ∧
    c.parameters.toList.map (·.2.override) = d.parameters.toList.map (·.2.override)
  | _, _ => False

/-! ## Lists of alike things -/

theorem alikeFilters_iff {xs ys : List Filter} : alikeFilters xs ys ↔ List.Forall₂ Filter.Alike xs ys := by
  induction xs generalizing ys with
  | nil => cases ys <;> simp [alikeFilters]
  | cons x xs ih => cases ys <;> simp [alikeFilters, ih]

theorem alikeExprs_iff {es fs : List Expr} : alikeExprs es fs ↔ List.Forall₂ Expr.Alike es fs := by
  induction es generalizing fs with
  | nil => cases fs <;> simp [alikeExprs]
  | cons e es ih => cases fs <;> simp [alikeExprs, ih]

theorem alikeJoins_iff {js ks : List Join} :
    alikeJoins js ks ↔ List.Forall₂ (fun j k => j.kind = k.kind ∧ j.table = k.table ∧
      j.outer.Alike k.outer ∧ j.inner.Alike k.inner) js ks := by
  induction js generalizing ks with
  | nil => cases ks <;> simp [alikeJoins]
  | cons j js ih =>
    obtain ⟨kind, table, outer, inner⟩ := j
    cases ks with
    | nil => simp [alikeJoins]
    | cons k ks =>
      obtain ⟨kind', table', outer', inner'⟩ := k
      simp [alikeJoins, ih]

theorem alikeSortKeys_iff {ks ls : List SortKey} :
    alikeSortKeys ks ls ↔ List.Forall₂ (fun k l => k.key.Alike l.key ∧ k.direction = l.direction) ks ls := by
  induction ks generalizing ls with
  | nil => cases ls <;> simp [alikeSortKeys]
  | cons k ks ih =>
    obtain ⟨key, direction⟩ := k
    cases ls with
    | nil => simp [alikeSortKeys]
    | cons l ls =>
      obtain ⟨key', direction'⟩ := l
      simp [alikeSortKeys, ih]

theorem map_eq_of_forall₂ {α β : Type} {R : α → α → Prop} {g : α → β} {xs ys : List α}
    (h : List.Forall₂ R xs ys) (hg : ∀ x ∈ xs, ∀ y, R x y → g x = g y) : xs.map g = ys.map g := by
  induction h with
  | nil => rfl
  | cons hxy _ ih =>
    simp only [List.map_cons, List.cons.injEq]
    exact ⟨hg _ (by simp) _ hxy, ih fun x hx => hg x (by simp [hx])⟩

/-! ## Blanking -/

/-- The binding without its value. -/
def Binding.blank (b : Binding) : Binding := ⟨.null, b.override⟩

/-- The bindings without their values. -/
def Parameters.blank (ps : Parameters) : Parameters := ⟨ps.toList.map fun p => (p.1, p.2.blank)⟩

/-- The command without the values it binds. -/
def Command.blank (c : Command) : Command := ⟨c.text, c.parameters.blank⟩

/-- The slot without the literals in it. -/
def Slot.blank : Slot → Slot
  | .value _ asText => .value .null asText
  | .filter c => .filter c.blank
  | .reject e => .reject e

/-- The registry without the values it binds. -/
def Registry.blank (r : Registry) : Registry := { r with parameters := r.parameters.blank }

theorem Parameters.insert_blank (ps : Parameters) (name : String) (b : Binding) :
    (ps.insert name b).blank = ps.blank.insert name b.blank := by
  obtain ⟨bs⟩ := ps
  simp only [Parameters.insert, Parameters.blank, Parameters.mk.injEq]
  induction bs with
  | nil => rfl
  | cons p bs ih =>
    obtain ⟨n, c⟩ := p
    by_cases hn : n = name
    · simp [Parameters.setIn, hn]
    · simp [Parameters.setIn, hn, ih]

theorem Parameters.ofList_blank (bs : List (String × Binding)) :
    (Parameters.ofList bs).blank = Parameters.ofList (bs.map fun p => (p.1, p.2.blank)) := by
  have h : ∀ (bs : List (String × Binding)) (ps : Parameters),
      (bs.foldl (fun ps e => ps.insert e.1 e.2) ps).blank =
        (bs.map fun p => (p.1, p.2.blank)).foldl (fun ps e => ps.insert e.1 e.2) ps.blank := by
    intro bs
    induction bs with
    | nil => exact fun _ => rfl
    | cons p bs ih =>
      intro ps
      simp only [List.foldl_cons, List.map_cons]
      rw [ih, Parameters.insert_blank]
  exact h bs Parameters.empty

theorem Registry.add_blank (r : Registry) (b : Binding) :
    r.blank.add b.blank = ((r.add b).1, (r.add b).2.blank) := by
  have hname : r.blank.nextName = r.nextName := by
    simp only [Registry.nextName, Registry.blank, Parameters.blank, Parameters.size, List.length_map]
  simp only [Registry.add, hname]
  simp only [Registry.blank, Parameters.insert_blank]

theorem Registry.absorbBinding_blank (text : String) (r : Registry) (entry : String × Binding) :
    Registry.absorbBinding (text, r.blank) (entry.1, entry.2.blank) =
      ((Registry.absorbBinding (text, r) entry).1, (Registry.absorbBinding (text, r) entry).2.blank) := by
  have hstyle : r.blank.style = r.style := rfl
  cases hs : r.style with
  | named => simp [Registry.absorbBinding, hs, Registry.blank, Parameters.insert_blank]
  | positional =>
    have htoken : ∀ name, (r.add entry.2).2.blank.token name = (r.add entry.2).2.token name := fun _ => rfl
    simp [Registry.absorbBinding, hstyle, hs, Registry.add_blank, htoken]

/-- Absorbing commutes with blanking; the text does not depend on the values. -/
theorem Registry.absorb_blank (r : Registry) (c : Command) :
    r.blank.absorb c.blank = ((r.absorb c).1, (r.absorb c).2.blank) := by
  obtain ⟨text, ⟨bs⟩⟩ := c
  simp only [Registry.absorb, Command.blank, Parameters.blank]
  induction bs generalizing text r with
  | nil => rfl
  | cons entry bs ih =>
    simp only [List.map_cons, List.foldl_cons]
    rw [Registry.absorbBinding_blank]
    exact ih _ _

theorem Slot.settle_simulates (s : Slot) : Simulates Registry.blank s.settle s.blank.settle := by
  intro r
  cases s with
  | value v asText =>
    have h := Registry.add_blank r (boundAs v asText)
    rw [Slot.blank, Slot.settle_value, Slot.settle_value]
    rw [show boundAs .null asText = (boundAs v asText).blank from rfl, h]
    rfl
  | filter c =>
    rw [Slot.blank, Slot.settle_filter, Slot.settle_filter, Registry.absorb_blank]
  | reject e => rfl


/-! ## Filters -/

theorem Filter.Alike.fragment {f g : Filter} (h : f.Alike g) (table : Table) (qualifier : Option String) :
    f.fragment table qualifier = g.fragment table qualifier := by
  induction f using Filter.induction generalizing g with
  | compare path op value =>
    cases g with
    | compare => obtain ⟨rfl, rfl, hv⟩ := h; simp [Filter.fragment, FilterParameter.token, hv]
    | _ => simp [Filter.Alike] at h
  | like path pattern =>
    cases g with
    | like => obtain ⟨rfl, hv⟩ := h; simp [Filter.fragment, FilterParameter.token, hv]
    | _ => simp [Filter.Alike] at h
  | isNull path negated =>
    cases g with
    | isNull => obtain ⟨rfl, rfl⟩ := h; rfl
    | _ => simp [Filter.Alike] at h
  | between path low high =>
    cases g with
    | between => obtain ⟨rfl, hl, hh⟩ := h; simp [Filter.fragment, FilterParameter.token, hl, hh]
    | _ => simp [Filter.Alike] at h
  | and items ih =>
    cases g with
    | and items' =>
      simp only [Filter.Alike, alikeFilters_iff] at h
      have hmap := map_eq_of_forall₂ (g := fun f => Sql.Fragment.parenthesized (f.fragment table qualifier)) h
        fun f hf g hg => by rw [ih f hf hg]
      cases h with
      | nil => rfl
      | cons => rw [Filter.fragment_and_cons, Filter.fragment_and_cons, hmap]
    | _ => simp [Filter.Alike] at h
  | or items ih =>
    cases g with
    | or items' =>
      simp only [Filter.Alike, alikeFilters_iff] at h
      have hmap := map_eq_of_forall₂ (g := fun f => Sql.Fragment.parenthesized (f.fragment table qualifier)) h
        fun f hf g hg => by rw [ih f hf hg]
      cases h with
      | nil => rfl
      | cons => rw [Filter.fragment_or_cons, Filter.fragment_or_cons, hmap]
    | _ => simp [Filter.Alike] at h
  | not item ih =>
    cases g with
    | not item' => simp only [Filter.Alike] at h; simp [Filter.fragment, ih h]
    | _ => simp [Filter.Alike] at h

theorem Filter.Alike.bindings {f g : Filter} (h : f.Alike g) (table : Table) (qualifier : Option String) :
    ((f.bindings table qualifier).map fun p => (p.1, p.2.blank)) =
      (g.bindings table qualifier).map fun p => (p.1, p.2.blank) := by
  induction f using Filter.induction generalizing g with
  | compare path op value =>
    cases g with
    | compare => obtain ⟨rfl, rfl, hv⟩ := h; simp [Filter.bindings, FilterParameter.binding, Binding.blank, hv]
    | _ => simp [Filter.Alike] at h
  | like path pattern =>
    cases g with
    | like => obtain ⟨rfl, hv⟩ := h; simp [Filter.bindings, FilterParameter.binding, Binding.blank, hv]
    | _ => simp [Filter.Alike] at h
  | isNull path negated =>
    cases g with
    | isNull => rfl
    | _ => simp [Filter.Alike] at h
  | between path low high =>
    cases g with
    | between =>
      obtain ⟨rfl, hl, hh⟩ := h
      simp [Filter.bindings, FilterParameter.binding, Binding.blank, hl, hh]
    | _ => simp [Filter.Alike] at h
  | and items ih =>
    cases g with
    | and items' =>
      simp only [Filter.Alike, alikeFilters_iff] at h
      simp only [Filter.bindings, Filter.bindingsOf_eq_flatMap, List.flatMap_def, List.map_flatten, List.map_map]
      exact congrArg List.flatten (map_eq_of_forall₂ h fun f hf g hg => ih f hf hg)
    | _ => simp [Filter.Alike] at h
  | or items ih =>
    cases g with
    | or items' =>
      simp only [Filter.Alike, alikeFilters_iff] at h
      simp only [Filter.bindings, Filter.bindingsOf_eq_flatMap, List.flatMap_def, List.map_flatten, List.map_map]
      exact congrArg List.flatten (map_eq_of_forall₂ h fun f hf g hg => ih f hf hg)
    | _ => simp [Filter.Alike] at h
  | not item ih =>
    cases g with
    | not item' => simp only [Filter.Alike] at h; simp only [Filter.bindings, ih h]
    | _ => simp [Filter.Alike] at h

/-- Alike filters are the same command up to the values it binds. -/
theorem Filter.Alike.command {f g : Filter} (h : f.Alike g) (table : Table) (qualifier : Option String) :
    (f.command table qualifier).blank = (g.command table qualifier).blank := by
  simp only [Filter.command, Command.blank, Parameters.ofList_blank, h.fragment table qualifier,
    h.bindings table qualifier]

/-! ## Inversion -/

theorem Expr.Alike.of_source {s : Source} {e : Expr} (h : (Expr.source s).Alike e) :
    ∃ t, e = .source t ∧ s.Alike t := by
  cases e <;> simp_all [Expr.Alike]

theorem Expr.Alike.of_subquery {q : Query} {e : Expr} (h : (Expr.subquery q).Alike e) :
    ∃ p, e = .subquery p ∧ q.Alike p := by
  cases e <;> simp_all [Expr.Alike]

theorem Expr.Alike.of_binary {op : BinaryOp} {left right e : Expr} (h : (Expr.binary op left right).Alike e) :
    ∃ l r, e = .binary op l r ∧ left.Alike l ∧ right.Alike r := by
  cases e <;> simp_all [Expr.Alike]

theorem Expr.Alike.of_conditional {test ifTrue ifFalse e : Expr}
    (h : (Expr.conditional test ifTrue ifFalse).Alike e) :
    ∃ t a b, e = .conditional t a b ∧ test.Alike t ∧ ifTrue.Alike a ∧ ifFalse.Alike b := by
  cases e <;> simp_all [Expr.Alike]

theorem Expr.Alike.of_constant {v : Literal} {e : Expr} (h : (Expr.constant v).Alike e) :
    ∃ w, e = .constant w ∧ v.valueType = w.valueType := by
  cases e <;> simp_all [Expr.Alike]

theorem Expr.Alike.of_member {root : Option Source} {path : List String} {type : ValueType} {e : Expr}
    (h : (Expr.member root path type).Alike e) : ∃ r, e = .member r path type ∧ alikeRoots root r := by
  cases e <;> simp_all [Expr.Alike]

theorem Expr.Alike.of_call {method : Method} {receiver : Option Expr} {arguments : List Expr} {e : Expr}
    (h : (Expr.call method receiver arguments).Alike e) :
    ∃ r as, e = .call method r as ∧ alikeOptions receiver r ∧ List.Forall₂ Expr.Alike arguments as := by
  cases e <;> simp_all [Expr.Alike, alikeExprs_iff]

theorem Expr.Alike.of_project {items : List Expr} {e : Expr} (h : (Expr.project items).Alike e) :
    ∃ es, e = .project es ∧ List.Forall₂ Expr.Alike items es := by
  cases e <;> simp_all [Expr.Alike, alikeExprs_iff]

theorem Expr.Alike.of_unary {op : UnaryOp} {operand e : Expr} (h : (Expr.unary op operand).Alike e) :
    ∃ f, e = .unary op f ∧ operand.Alike f := by
  cases e <;> simp_all [Expr.Alike]

/-! ## What emission reads of an expression -/

theorem Literal.isNull_of_valueType {v w : Literal} (h : v.valueType = w.valueType) : v.isNull = w.isNull := by
  cases v <;> cases w <;> simp_all [Literal.valueType, Literal.nativeType, Literal.isNull, ValueType.ofColumnType]

theorem Expr.isNull_constant (v : Literal) : (Expr.constant v).isNull = v.isNull := by
  cases v <;> rfl

theorem Expr.Alike.isNull {e e' : Expr} (h : e.Alike e') : e.isNull = e'.isNull := by
  cases e <;> cases e' <;> simp only [Expr.Alike] at h <;> try rfl
  case constant.constant v w =>
    rw [Expr.isNull_constant, Expr.isNull_constant]
    exact Literal.isNull_of_valueType h

theorem Expr.Alike.valueType {e e' : Expr} (h : e.Alike e') : e.valueType = e'.valueType := by
  induction e using Expr.induction generalizing e' with
  | source s => obtain ⟨t, rfl, -⟩ := h.of_source; rfl
  | subquery q => obtain ⟨p, rfl, -⟩ := h.of_subquery; rfl
  | binary op left right ihl ihr =>
    obtain ⟨l, r, rfl, hl, hr⟩ := h.of_binary
    simp only [Expr.valueType, ihl hl, ihr hr]
  | conditional test ifTrue ifFalse _ iht ihf =>
    obtain ⟨u, c, d, rfl, -, ht, hf⟩ := h.of_conditional
    simp only [Expr.valueType, iht ht, ihf hf]
  | constant value => obtain ⟨w, rfl, hw⟩ := h.of_constant; exact hw
  | member root path type => obtain ⟨r, rfl, -⟩ := h.of_member; rfl
  | call method receiver arguments => obtain ⟨r, as, rfl, -, -⟩ := h.of_call; rfl
  | project items => obtain ⟨es, rfl, -⟩ := h.of_project; rfl
  | unary op operand ih =>
    obtain ⟨f, rfl, hf⟩ := h.of_unary
    cases op with
    | not => rfl
    | convert => simp only [Expr.valueType, ih hf]
    | typeAs => simp only [Expr.valueType, ih hf]

theorem Expr.Alike.isConcatenation {l l' r r' : Expr} (hl : l.Alike l') (hr : r.Alike r') (op : BinaryOp) :
    Expr.isConcatenation op l r = Expr.isConcatenation op l' r' := by
  rw [Expr.isConcatenation, Expr.isConcatenation, hl.valueType, hr.valueType]

theorem Expr.Alike.needsParens {e e' : Expr} (h : e.Alike e') (op : BinaryOp) (concat : Bool)
    (precedence : Nat) (onRight : Bool) (m : Mode) :
    ParamQuery.needsParens op concat precedence onRight m e =
      ParamQuery.needsParens op concat precedence onRight m e' := by
  have hp : e.precedence? m = e'.precedence? m := by
    cases e <;> cases e' <;> simp only [Expr.Alike] at h <;> try rfl
    case binary.binary => obtain ⟨rfl, hl, hr⟩ := h; simp [Expr.precedence?, Expr.Alike.isConcatenation hl hr]
    case member.member => obtain ⟨-, rfl, rfl⟩ := h; rfl
    case call.call => obtain ⟨rfl, -, -⟩ := h; rfl
    case unary.unary op _ _ _ => obtain ⟨rfl, -⟩ := h; cases op <;> rfl
  have ho : e.isOperation op concat = e'.isOperation op concat := by
    cases e <;> cases e' <;> simp only [Expr.Alike] at h <;> try rfl
    case binary.binary => obtain ⟨rfl, hl, hr⟩ := h; simp [Expr.isOperation, Expr.Alike.isConcatenation hl hr]
  rw [ParamQuery.needsParens, ParamQuery.needsParens, hp, ho]

/-! ## Emission -/

/-- What is emitted, without the literals in it. -/
def Emitted.blank (e : Emitted) : Emitted := ⟨e.tree.map (Sql.Term.map Slot.blank), e.jsonText⟩

theorem Emitted.term_blank (e : Emitted) : e.blank.term = e.term.map Slot.blank :=
  (caseTerm_map Slot.blank e.tree).symm

theorem Emitted.blank_ofTerm (t : Sql.Term Slot) (jsonText : Bool) :
    (Emitted.ofTerm t jsonText).blank = .ofTerm (t.map Slot.blank) jsonText := rfl

theorem Emitted.term_congr {e e' : Emitted} (h : e.blank = e'.blank) :
    e.term.map Slot.blank = e'.term.map Slot.blank := by
  rw [← Emitted.term_blank, ← Emitted.term_blank, h]

theorem parenIf_map (f : Slot → Slot) (wrap : Bool) (t : Sql.Term Slot) :
    (parenIf wrap t).map f = parenIf wrap (t.map f) := by
  cases wrap <;> rfl

theorem memberTerm_blank (sc : Scope) (own : Option String) (qualifier : Sql.Term Slot) (path : List String)
    (m : Mode) :
    (memberTerm sc own qualifier path m).blank = memberTerm sc own (qualifier.map Slot.blank) path m := by
  have hc : ∀ path, (columnTerm sc own qualifier path).map Slot.blank =
      columnTerm sc own (qualifier.map Slot.blank) path := by
    intro path
    cases path with
    | nil => rfl
    | cons base steps =>
      simp only [columnTerm]
      cases sc.column? own base with
      | some c => rfl
      | none => cases sc.strict && !sc.isForeign own <;> simp [Slot.blank]
  have hl : ∀ n (t : Sql.Term Slot), (lengths n t).map Slot.blank = lengths n (t.map Slot.blank) := by
    intro n t
    induction n with
    | zero => rfl
    | succ n ih => simp [lengths, ih]
  have hb : ∀ t : Sql.Term Slot, (labelIf m path t).map Slot.blank = labelIf m path (t.map Slot.blank) := by
    intro t
    simp only [labelIf]
    split <;> rfl
  simp only [memberTerm, Emitted.blank_ofTerm, hb, hl, hc]

/-- Alike in emission: the same up to literals, wherever the expressions stand. -/
def EmitAlike (e : Expr) : Prop :=
  ∀ e', e.Alike e' → ∀ sc m beside, (e.emit sc m beside).blank = (e'.emit sc m beside).blank

theorem Source.Alike.emit {s t : Source} (h : s.Alike t) (ih : s.All EmitAlike) (sc : Scope) (m : Mode)
    (beside : Bool) : (s.emit sc m beside).blank = (t.emit sc m beside).blank := by
  obtain ⟨typeName, members, own, group⟩ := s
  obtain ⟨typeName', members', own', group'⟩ := t
  simp only [Source.Alike] at h
  obtain ⟨rfl, rfl, rfl, hg⟩ := h
  cases group with
  | none =>
    cases group' with
    | none => rfl
    | some g' => simp [alikeGroups] at hg
  | some g =>
    cases group' with
    | none => simp [alikeGroups] at hg
    | some g' =>
      obtain ⟨outer, inner⟩ := g
      obtain ⟨outer', inner'⟩ := g'
      simp only [alikeGroups] at hg
      obtain ⟨ho, hi⟩ := ih ⟨outer, inner⟩ rfl
      have hinner := hi _ hg.2 { sc with qualifier := some ("temp_" ++ sc.tableName own) } {} beside
      have hjson := congrArg Emitted.jsonText hinner
      simp only [Emitted.blank] at hjson
      have houter := ho _ hg.1 sc {} (inner'.emit
        { sc with qualifier := some ("temp_" ++ sc.tableName own) } {} beside).jsonText
      have hjson' := congrArg Emitted.jsonText houter
      simp only [Emitted.blank] at hjson'
      simp only [Source.emit, Emitted.blank_ofTerm, groupJoinTerm, Sql.Term.map_list, List.map_cons,
        Sql.Term.map_labelled, Sql.Term.map_groupCount, Emitted.term_congr hinner, hjson,
        Emitted.term_congr houter, hjson']

theorem emitRoot_blank {r r' : Option Source} (h : alikeRoots r r') (ih : ∀ s ∈ r, s.All EmitAlike) (sc : Scope)
    (m : Mode) (beside : Bool) :
    (emitRoot r sc m beside).map Slot.blank = (emitRoot r' sc m beside).map Slot.blank ∧
      r.bind (·.table) = r'.bind (·.table) := by
  cases r with
  | none =>
    cases r' with
    | none => exact ⟨rfl, rfl⟩
    | some t => simp [alikeRoots] at h
  | some s =>
    cases r' with
    | none => simp [alikeRoots] at h
    | some t =>
      simp only [alikeRoots] at h
      refine ⟨Emitted.term_congr (h.emit (ih s rfl) sc m beside), ?_⟩
      obtain ⟨typeName, members, own, group⟩ := s
      obtain ⟨typeName', members', own', group'⟩ := t
      simp only [Source.Alike] at h
      exact h.2.2.1

theorem emitEach_blank {es fs : List Expr} (h : List.Forall₂ Expr.Alike es fs) (ih : ∀ e ∈ es, EmitAlike e)
    (sc : Scope) (m : Mode) (beside : Bool) :
    (emitEach es sc m beside).map (Sql.Term.map Slot.blank) =
      (emitEach fs sc m beside).map (Sql.Term.map Slot.blank) := by
  rw [emitEach_eq_map, emitEach_eq_map, List.map_map, List.map_map]
  exact map_eq_of_forall₂ h fun e he f hf => Emitted.term_congr (ih e he f hf sc m beside)

/-- The terms of a clause that lists expressions. -/
theorem emitClause_blank {es fs : List Expr} (h : List.Forall₂ Expr.Alike es fs)
    (ih : ∀ e ∈ es, EmitAlike e) (sc : Scope) :
    (es.map fun e => (e.emit sc {} false).term).map (Sql.Term.map Slot.blank) =
      (fs.map fun e => (e.emit sc {} false).term).map (Sql.Term.map Slot.blank) := by
  rw [List.map_map, List.map_map]
  exact map_eq_of_forall₂ h fun e he f hf => Emitted.term_congr (ih e he f hf _ {} false)

theorem emitFilters_blank {fs gs : List Filter} (h : List.Forall₂ Filter.Alike fs gs) (t : Table)
    (qualifier : Option String) :
    (fs.map fun f => Sql.Term.slot (Slot.filter (f.command t qualifier))).map (Sql.Term.map Slot.blank) =
      (gs.map fun f => Sql.Term.slot (Slot.filter (f.command t qualifier))).map (Sql.Term.map Slot.blank) := by
  rw [List.map_map, List.map_map]
  refine map_eq_of_forall₂ h fun f _ g hg => ?_
  simp only [Function.comp_apply, Sql.Term.map_slot, Slot.blank, hg.command]

theorem emitJoins_blank {js ks : List Join}
    (h : List.Forall₂ (fun j k => j.kind = k.kind ∧ j.table = k.table ∧ j.outer.Alike k.outer ∧
      j.inner.Alike k.inner) js ks)
    (ih : ∀ j ∈ js, EmitAlike j.outer ∧ EmitAlike j.inner) (sc : Scope) :
    (js.map (Join.emit · sc)).map (Sql.JoinOn.map Slot.blank) =
      (ks.map (Join.emit · sc)).map (Sql.JoinOn.map Slot.blank) := by
  rw [List.map_map, List.map_map]
  refine map_eq_of_forall₂ h fun j hj k ⟨hk, ht, ho, hi⟩ => ?_
  simp only [Function.comp_apply, Join.emit, Sql.JoinOn.map, hk, ht,
    Emitted.term_congr ((ih j hj).1 _ ho _ {} false), Emitted.term_congr ((ih j hj).2 _ hi _ {} false)]

theorem emitSortKeys_blank {ks ls : List SortKey}
    (h : List.Forall₂ (fun k l => k.key.Alike l.key ∧ k.direction = l.direction) ks ls)
    (ih : ∀ k ∈ ks, EmitAlike k.key) (sc : Scope) :
    (ks.map (SortKey.emit · sc)).map (Sql.SortTerm.map Slot.blank) =
      (ls.map (SortKey.emit · sc)).map (Sql.SortTerm.map Slot.blank) := by
  rw [List.map_map, List.map_map]
  refine map_eq_of_forall₂ h fun k hk l ⟨hl, hd⟩ => ?_
  simp only [Function.comp_apply, SortKey.emit, Sql.SortTerm.map, hd,
    Emitted.term_congr (ih k hk _ hl _ {} false)]

theorem Source.Alike.table {s t : Source} (h : s.Alike t) : t.table = s.table := by
  obtain ⟨typeName, members, own, group⟩ := s
  obtain ⟨typeName', members', own', group'⟩ := t
  simp only [Source.Alike] at h
  exact h.2.2.1.symm

/-- The parts of alike queries, clause by clause. -/
theorem Query.Alike.parts {p q : Query} (h : p.Alike q) :
    p.source.Alike q.source ∧ alikeOptions p.selector q.selector ∧
      List.Forall₂ (fun j k => j.kind = k.kind ∧ j.table = k.table ∧ j.outer.Alike k.outer ∧
        j.inner.Alike k.inner) p.joins q.joins ∧
      List.Forall₂ Expr.Alike p.conditions q.conditions ∧
      List.Forall₂ Filter.Alike p.filters q.filters ∧
      List.Forall₂ Expr.Alike p.groupBy q.groupBy ∧
      List.Forall₂ (fun k l => k.key.Alike l.key ∧ k.direction = l.direction) p.orderBy q.orderBy ∧
      p.limit = q.limit ∧ p.offset = q.offset ∧ p.distinct = q.distinct ∧ p.count = q.count := by
  obtain ⟨s, sel, js, cs, fs, gs, os, lim, off, dis, cnt⟩ := p
  obtain ⟨s', sel', js', cs', fs', gs', os', lim', off', dis', cnt'⟩ := q
  simpa only [Query.Alike, alikeJoins_iff, alikeExprs_iff, alikeFilters_iff, alikeSortKeys_iff] using h

theorem Query.Alike.emitItems {p q : Query} (h : p.Alike q) (ih : p.All EmitAlike) (sc : Scope) :
    (p.emitItems sc).map Slot.blank = (q.emitItems sc).map Slot.blank := by
  obtain ⟨hs, hsel, -, -, -, -, -, -, -, -, hcount⟩ := h.parts
  have hselector := ih.selector
  simp only [Query.emitItems, ← hcount]
  by_cases hc : p.count
  · simp only [hc, if_true]
  · simp only [hc]
    cases hp : p.selector with
    | none =>
      cases hq : q.selector with
      | none => exact Emitted.term_congr (hs.emit ih.source sc {} false)
      | some e' => simp [hp, hq, alikeOptions] at hsel
    | some e =>
      cases hq : q.selector with
      | none => simp [hp, hq, alikeOptions] at hsel
      | some e' =>
        simp only [hp, hq, alikeOptions] at hsel
        exact Emitted.term_congr (hselector e hp e' hsel sc {} false)

/-- The clauses of a statement are the same up to literals when those of the
query are. -/
theorem Query.Alike.emit_of {p q : Query} (h : p.Alike q) (ih : p.All EmitAlike) (sc : Scope) :
    (p.emit sc).map Slot.blank = (q.emit sc).map Slot.blank := by
  obtain ⟨hs, -, hjoins, hconditions, hfilters, hgroups, hkeys, hlimit, hoffset, hdistinct, -⟩ := h.parts
  have hscope : q.scope sc = p.scope sc := by simp only [Query.scope, hs.table]
  have hname : q.tableName sc.table = p.tableName sc.table := by simp only [Query.tableName, hs.table]
  rw [Query.emit_eq, Query.emit_eq, Sql.Select.map_eq, Sql.Select.map_eq, hscope, hname]
  simp only [List.map_append, h.emitItems ih, emitJoins_blank hjoins ih.joins,
    emitClause_blank hconditions ih.conditions, emitFilters_blank hfilters,
    emitClause_blank hgroups ih.groupBy, emitSortKeys_blank hkeys ih.orderBy, hlimit, hoffset, hdistinct]

/-- **Alike expressions are emitted alike**: the literals of an expression
decide nothing but the literals in its slots. -/
theorem Expr.Alike.emit (e : Expr) : EmitAlike e := by
  induction e using Expr.induction with
  | source s ih =>
    intro e' h sc m beside
    obtain ⟨t, rfl, ht⟩ := h.of_source
    exact ht.emit ih sc m beside
  | subquery q ih =>
    intro e' h sc m beside
    obtain ⟨p, rfl, hp⟩ := h.of_subquery
    simp only [Expr.emit, Emitted.blank_ofTerm, Sql.Term.map_subquery, hp.emit_of ih sc]
  | binary op left right ihl ihr =>
    intro e' h sc m beside
    obtain ⟨l, r, rfl, hl, hr⟩ := h.of_binary
    have hleft := ihl l hl sc m.operand false
    have hright := ihr r hr sc m.operand
    have hjson := congrArg Emitted.jsonText hleft
    simp only [Emitted.blank] at hjson
    simp only [Expr.emit, hl.isNull, hr.isNull, hl.needsParens, hr.needsParens, hl.isConcatenation hr, hjson]
    split
    · simp only [Emitted.blank_ofTerm, Sql.Term.map_nullTest, parenIf_map, Emitted.term_congr hleft]
    · split
      · simp only [Emitted.blank_ofTerm, Sql.Term.map_nullTest, parenIf_map, Emitted.term_congr (hright false)]
      · simp only [Emitted.blank_ofTerm, Sql.Term.map_operation, parenIf_map, Emitted.term_congr hleft,
          Emitted.term_congr (hright _)]
  | conditional test ifTrue ifFalse iht iha ihb =>
    intro e' h sc m beside
    obtain ⟨t, a, b, rfl, ht, ha, hb⟩ := h.of_conditional
    have htree := congrArg Emitted.tree (iha a ha sc m.inCase false)
    have htree' := congrArg Emitted.tree (ihb b hb sc m.inCase false)
    simp only [Emitted.blank] at htree htree'
    simp only [Expr.emit, Emitted.blank, Sql.Decision.map, htree, htree',
      Emitted.term_congr (iht t ht sc m.inCase false)]
  | constant value =>
    intro e' h sc m beside
    obtain ⟨w, rfl, -⟩ := h.of_constant
    rfl
  | member root path type ih =>
    intro e' h sc m beside
    obtain ⟨r, rfl, hr⟩ := h.of_member
    obtain ⟨hq, hown⟩ := emitRoot_blank hr ih sc m.forMemberRoot beside
    simp only [Expr.emit, hown]
    split
    · rfl
    · rw [memberTerm_blank, memberTerm_blank, hq]
  | call method receiver arguments ihr iha =>
    intro e' h sc m beside
    obtain ⟨r, as, rfl, hr, has⟩ := h.of_call
    have heach := emitEach_blank has iha sc m.operand
    simp only [Expr.emit, has.length_eq]
    split
    · simp only [Emitted.blank_ofTerm, Sql.Term.map_call, List.map_cons, List.map_nil, Sql.Term.map_list, heach]
    · cases receiver with
      | none =>
        cases r with
        | none => simp only [emitOption, Emitted.blank_ofTerm, Sql.Term.map_call, heach]
        | some e => simp [alikeOptions] at hr
      | some e =>
        cases r with
        | none => simp [alikeOptions] at hr
        | some f =>
          simp only [alikeOptions] at hr
          have hrecv := ihr e rfl f hr sc m.operand false
          have hjson := congrArg Emitted.jsonText hrecv
          simp only [Emitted.blank] at hjson
          simp only [emitOption, Emitted.blank_ofTerm, Sql.Term.map_call, List.map_cons, heach, hjson,
            Emitted.term_congr hrecv]
  | project items ih =>
    intro e' h sc m beside
    obtain ⟨es, rfl, hes⟩ := h.of_project
    have hempty : items.isEmpty = es.isEmpty := by cases hes <;> rfl
    simp only [Expr.emit, hempty]
    split
    · rfl
    · simp only [Emitted.blank_ofTerm, Sql.Term.map_list, emitEach_blank hes ih]
  | unary op operand ih =>
    intro e' h sc m beside
    obtain ⟨f, rfl, hf⟩ := h.of_unary
    cases op with
    | not =>
      have hjson := congrArg Emitted.jsonText (ih f hf sc m.operand beside)
      simp only [Emitted.blank] at hjson
      simp only [Expr.emit, Emitted.blank_ofTerm, Sql.Term.map_negation, hjson,
        Emitted.term_congr (ih f hf sc m.operand beside)]
    | convert | typeAs =>
      have hjson := congrArg Emitted.jsonText (ih f hf sc m beside)
      simp only [Emitted.blank] at hjson
      simp only [Expr.emit, Emitted.blank_ofTerm, hjson, Emitted.term_congr (ih f hf sc m beside)]

theorem Query.Alike.emit {p q : Query} (h : p.Alike q) (sc : Scope) :
    (p.emit sc).map Slot.blank = (q.emit sc).map Slot.blank :=
  h.emit_of (Query.All.intro Expr.Alike.emit p) sc

/-! ## Compilations -/

theorem Command.blank_eq {c d : Command} (h : c.blank = d.blank) :
    c.text = d.text ∧ c.parameters.names = d.parameters.names ∧
      c.parameters.toList.map (·.2.override) = d.parameters.toList.map (·.2.override) := by
  obtain ⟨text, ⟨ps⟩⟩ := c
  obtain ⟨text', ⟨ps'⟩⟩ := d
  simp only [Command.blank, Parameters.blank, Command.mk.injEq, Parameters.mk.injEq] at h
  obtain ⟨rfl, h⟩ := h
  have hnames := congrArg (List.map Prod.fst) h
  have hoverrides := congrArg (List.map fun p : String × Binding => p.2.override) h
  simp only [List.map_map] at hnames hoverrides
  exact ⟨rfl, hnames, hoverrides⟩

/-- Two steps that do the same on a blanked registry have the same outcome. -/
theorem sameOutcome_of_simulates {x y z : Naming String} (hx : Simulates Registry.blank x z)
    (hy : Simulates Registry.blank y z) (settings : Settings) :
    SameOutcome (x.toCommand settings) (y.toCommand settings) := by
  -- both runs start on the empty registry, which is its own blank
  have hrun : ((x.runOn (.ofSettings settings)).1, (x.runOn (.ofSettings settings)).2.blank) =
      ((y.runOn (.ofSettings settings)).1, (y.runOn (.ofSettings settings)).2.blank) :=
    (hx (.ofSettings settings)).symm.trans (hy (.ofSettings settings))
  simp only [Naming.toCommand]
  rcases hxr : x.runOn (.ofSettings settings) with ⟨e | text, r⟩ <;>
    rcases hyr : y.runOn (.ofSettings settings) with ⟨e' | text', r'⟩ <;>
    simp only [hxr, hyr, Prod.mk.injEq, Except.ok.injEq, Except.error.injEq, reduceCtorEq, false_and] at hrun
  · exact hrun.1
  · obtain ⟨rfl, hr⟩ := hrun
    refine Command.blank_eq ?_
    simp only [Command.blank, Command.mk.injEq, true_and]
    exact congrArg Registry.parameters hr

/-- **Literals are never interpolated.** Queries, or expressions on their own,
that differ only in the values of constants of the same type and of filters
fail with the same error, or succeed with the same text, the same parameter
names in the same order and the same type overrides. -/
theorem compile_noninterference (table : Table) (settings : Settings) :
    (∀ p q : Query, p.Alike q → SameOutcome (p.compile table settings) (q.compile table settings)) ∧
      ∀ (e f : Expr) (qualifier : Option String), e.Alike f →
        SameOutcome (e.compile table settings qualifier) (f.compile table settings qualifier) := by
  constructor
  · intro p q h
    have hp := Sql.Select.mapM_simulates Slot.settle_simulates (p.emit (.ofSettings table settings none))
    have hq := Sql.Select.mapM_simulates Slot.settle_simulates (q.emit (.ofSettings table settings none))
    rw [← h.emit] at hq
    exact sameOutcome_of_simulates ((hp.bind fun _ => .pure _).bind fun _ => .pure _)
      ((hq.bind fun _ => .pure _).bind fun _ => .pure _) settings
  · intro e f qualifier h
    have he := Sql.Term.mapM_simulates Slot.settle_simulates
      (e.emit (.ofSettings table settings qualifier) {} false).term
    have hf := Sql.Term.mapM_simulates Slot.settle_simulates
      (f.emit (.ofSettings table settings qualifier) {} false).term
    rw [← Emitted.term_congr (Expr.Alike.emit e f h _ _ _)] at hf
    exact sameOutcome_of_simulates (he.bind fun _ => .pure _) (hf.bind fun _ => .pure _) settings

/-- The notes that contain a text, of rows with a given owner. -/
def notesOf (note : String) (owner : Literal) : Query where
  source := ⟨"Note", [], none, none⟩
  selector := none
  joins := []
  conditions := [.binary .orElse (.call .contains (some (.member none ["Body", "Title"] .text))
      [.constant (.string note)])
    (.binary .equal (.member none ["Parent"] .integer) (.constant .null))]
  filters := [.compare "Owner" .equal ⟨"eq_1", owner⟩]
  groupBy := []
  orderBy := []
  limit := none
  offset := none
  distinct := false
  count := false

/-- A text that looks like SQL, and a filter value of another type. -/
theorem notesOf_noninterference :
    (notesOf "a" (.int 1)).Alike (notesOf "' OR 1 = 1 --" (.string "@p0")) ∧
      SameOutcome ((notesOf "a" (.int 1)).compile { name := "notes" } { style := .positional })
        ((notesOf "' OR 1 = 1 --" (.string "@p0")).compile { name := "notes" } { style := .positional }) := by
  have h : (notesOf "a" (.int 1)).Alike (notesOf "' OR 1 = 1 --" (.string "@p0")) := by
    simp [notesOf, Query.Alike, Source.Alike, Expr.Alike, Filter.Alike, alikeGroups, alikeOptions, alikeJoins,
      alikeExprs, alikeFilters, alikeSortKeys, alikeRoots, Literal.valueType, Literal.nativeType]
  exact ⟨h, (compile_noninterference _ _).1 _ _ h⟩

end ParamQuery
