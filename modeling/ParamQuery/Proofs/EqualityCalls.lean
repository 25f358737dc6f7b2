/-
A call of `Equals` beside the operator `=`. Both settle the left operand and then
the right one, a constant on the right being bound as text where the left operand
is JSON text, and both put ` = ` between the two texts
(`settleTerm_equals`, `settleTerm_equal`).

The operator alone knows the null constant: it writes a null test, which binds
nothing, where the call compares with a parameter that is bound to null. What the
call writes there never is a null test (`Expr.last_of_standsBare`).
-/
import ParamQuery.Proofs.CallOperands
import ParamQuery.Proofs.Projections
import ParamQuery.Proofs.WhereClause

namespace ParamQuery

open Sql

/-- Whether an expression stands beside `=` without parentheses: a constant, a
member, or a call that is written as a function. -/
def Expr.standsBare : Expr → Bool
  | .constant _ | .member _ _ _ => true
  | .call method _ _ => !method.isPredicate
  | _ => false

theorem needsParens_of_standsBare {e : Expr} (h : e.standsBare) (onRight : Bool) (m : Mode) :
    needsParens .equal false comparisonPrecedence onRight m e = false := by
  cases e with
  | constant value => rfl
  | member root path type =>
    by_cases hsteps : 1 < path.length ∧ ¬isLengthPath path
    · simp only [needsParens, Expr.precedence?, if_pos hsteps]
      rfl
    · simp only [needsParens, Expr.precedence?, if_neg hsteps]
  | call method receiver arguments =>
    have hmethod : method.isPredicate = false := by simpa [Expr.standsBare] using h
    simp [needsParens, Expr.precedence?, hmethod]
  | _ => cases h

/-! ## Settling operands in turn -/

theorem settleTerm_slot (b : Slot) : settleTerm (.slot b) = b.settle := by
  simp [settleTerm, Term.mapM, Term.walk, Term.render, Term.fragment, Token.render]

theorem settleTerm_operation (left right : Term Slot) (op : Infix) :
    settleTerm (.operation left op right) = do
      let x ← settleTerm left
      let y ← settleTerm right
      return x ++ op.padded ++ y := by
  simp [settleTerm, Term.mapM, Term.walk, Term.render, Term.fragment, Token.render, String.append_assoc]

theorem settleTerm_isNull (t : Term Slot) :
    settleTerm (.nullTest t false) = do return (← settleTerm t) ++ " IS NULL" := by
  simp [settleTerm, Term.mapM, Term.walk, Term.render, Term.fragment, Token.render]

theorem settleTerm_call (template : Template) (ts : List (Term Slot)) :
    settleTerm (.call template ts) = do return template.render (← ts.mapM settleTerm) := by
  rw [← mapTerms_render]
  simp [settleTerm, Term.mapM, Term.walk, mapTerms, Term.render_call]

theorem Sql.Template.render_equals (arguments : Nat) (x y : String) :
    (Template.ofMethod .equals arguments).render [x, y] = x ++ " = " ++ y := by
  rw [Template.render, Template.expand, Method.parts_ofMethod]
  simp only [Method.layout, Method.layoutParts, List.map_cons, List.map_nil, List.flatMap_cons, List.flatMap_nil,
    List.getD_cons_zero, List.getD_cons_succ, String.ofList_append, String.ofList_toList, id, List.append_nil,
    String.append_assoc]

/-- A call of `Equals` settles its operands in turn, whatever they are. -/
theorem settleTerm_equals (r a : Expr) (sc : Scope) (m : Mode) (beside : Bool) :
    settleTerm ((Expr.call .equals (some r) [a]).emit sc m beside).term = do
      let x ← settleTerm (r.emit sc m.operand false).term
      let y ← settleTerm (a.emit sc m.operand (r.emit sc m.operand false).jsonText).term
      return x ++ " = " ++ y := by
  have hemit : ((Expr.call .equals (some r) [a]).emit sc m beside).term =
      .call (Template.ofMethod .equals 1) [(r.emit sc m.operand false).term,
        (a.emit sc m.operand (r.emit sc m.operand false).jsonText).term] := by
    simp only [Expr.emit, emitOption, emitEach, Method.comparesWithReceiver, Bool.true_and]
    rfl
  rw [hemit, settleTerm_call]
  simp [Template.render_equals]

/-- So does the operator, between operands that stand bare and are not null. -/
theorem settleTerm_equal {r a : Expr} (hr : r.standsBare) (ha : a.standsBare) (hnr : r.isNull = false)
    (hna : a.isNull = false) (sc : Scope) (m : Mode) (beside : Bool) :
    settleTerm ((Expr.binary .equal r a).emit sc m beside).term = do
      let x ← settleTerm (r.emit sc m.operand false).term
      let y ← settleTerm (a.emit sc m.operand (r.emit sc m.operand false).jsonText).term
      return x ++ " = " ++ y := by
  have hemit : ((Expr.binary .equal r a).emit sc m beside).term =
      .operation (r.emit sc m.operand false).term (.operator .equal)
        (a.emit sc m.operand (r.emit sc m.operand false).jsonText).term := by
    rw [Expr.emit]
    simp only [hnr, hna, Bool.and_false, Bool.false_eq_true, if_false]
    have hright := needsParens_of_standsBare ha true m.operand
    have hleft := needsParens_of_standsBare hr false m.operand
    have hconcat : Expr.isConcatenation .equal r a = false := rfl
    have hprecedence : BinaryOp.equal.precedence = comparisonPrecedence := rfl
    simp only [hconcat, Bool.false_eq_true, if_false, hprecedence, hleft, hright, parenIf]
    rfl
  rw [hemit, settleTerm_operation]
  rfl

/-- Beside null the operator is a null test of the other operand. -/
theorem settleTerm_equal_null {r a : Expr} (hr : r.standsBare) (ha : a.isNull) (sc : Scope) (m : Mode) (beside : Bool) :
    settleTerm ((Expr.binary .equal r a).emit sc m beside).term = do
      return (← settleTerm (r.emit sc m.operand false).term) ++ " IS NULL" := by
  rw [← settleTerm_isNull, Expr.emit]
  simp only [ha, BinaryOp.isEquality, Bool.and_true, if_true, needsParens_of_standsBare hr, parenIf,
    Bool.false_eq_true, if_false]
  rfl

theorem settleTerm_null_equal {r a : Expr} (hr : r.isNull) (ha : a.standsBare) (hna : a.isNull = false) (sc : Scope)
    (m : Mode) (beside : Bool) :
    settleTerm ((Expr.binary .equal r a).emit sc m beside).term = do
      return (← settleTerm (a.emit sc m.operand false).term) ++ " IS NULL" := by
  rw [← settleTerm_isNull, Expr.emit]
  simp only [hr, hna, BinaryOp.isEquality, Bool.and_true, Bool.and_false, if_true, needsParens_of_standsBare ha,
    parenIf, Bool.false_eq_true, if_false]
  rfl

/-! ## How an operand ends -/

theorem getLast?_append {y : String} (x : String) (h : y.toList ≠ []) :
    (x ++ y).toList.getLast? = y.toList.getLast? := by
  rw [String.toList_append, List.getLast?_append_of_ne_nil _ h]

theorem getLast?_append_enclose (x : String) (quote : Char) (s : String) :
    (x ++ enclose quote s).toList.getLast? = some quote := by
  simp [enclose, List.getLast?_cons]

/-- A column ends in the quote of its name or of the last key. -/
theorem getLast?_traversal (x : String) {quote : Char} (h : x.toList.getLast? = some quote) (steps : List String) :
    (x ++ Fragment.render (Fragment.traversal steps)).toList.getLast? = some quote ∨
      (x ++ Fragment.render (Fragment.traversal steps)).toList.getLast? = some '\'' := by
  induction steps generalizing x quote with
  | nil => exact .inl (by simpa [Fragment.traversal] using h)
  | cons step steps ih =>
    have hkey (y : String) : (y ++ quoteKey step).toList.getLast? = some '\'' := getLast?_append_enclose _ _ _
    cases steps with
    | nil =>
      have := hkey (x ++ "->>")
      exact .inr (by simpa [Fragment.traversal, Token.render, String.append_assoc] using this)
    | cons next steps =>
      have := (ih (x ++ "->" ++ quoteKey step) (hkey _)).elim id id
      exact .inr (by simpa [Fragment.traversal, Token.render, String.append_assoc] using this)

/-- A parameter ends in the last digit of its number. -/
theorem Registry.getLast?_token (r : Registry) :
    ∃ c, (r.token r.nextName).toList.getLast? = some c ∧ c.isDigit := by
  have hdigit (x : String) (n : Nat) : ∃ c, (x ++ toString n).toList.getLast? = some c ∧ c.isDigit := by
    rw [getLast?_append x (toString_ne_empty n)]
    obtain ⟨c, hc⟩ := Option.isSome_iff_exists.1 (List.getLast?_isSome.2 (toString_ne_empty n))
    exact ⟨c, hc, isDigit_of_mem_toString (List.mem_of_getLast? hc)⟩
  unfold Registry.token Registry.nextName
  cases r.style with
  | named => simpa only [String.append_assoc] using hdigit ("@" ++ r.stem) r.counter
  | positional => exact hdigit "$" (r.parameters.size + 1)

/-- A call that is written as a function ends in its parenthesis. -/
theorem Method.getLast?_render {method : Method} (h : method.isPredicate = false) (arguments : Nat)
    (texts : List String) : ((Template.ofMethod method arguments).render texts).toList.getLast? = some ')' := by
  rw [Template.render, Template.expand, Method.parts_ofMethod, String.toList_ofList]
  cases method with
  | equals | contains | startsWith | endsWith => cases h
  | substring =>
    by_cases hcount : 1 < arguments <;> simp [Method.layout, Method.layoutParts, hcount, List.getLast?_cons]
  | toLower | toUpper | reverse | length | concat | replace | trim | trimStart | trimEnd =>
    simp [Method.layout, Method.layoutParts, List.getLast?_cons]

theorem settleTerm_column (qualifier : Term Slot) (name : String) (steps : List String) :
    settleTerm (.column qualifier name steps) = do
      return (← settleTerm qualifier) ++ "." ++ quoteName name ++ Fragment.render (Fragment.traversal steps) := by
  simp [settleTerm, Term.mapM, Term.walk, Term.render, Term.fragment, Token.render, String.append_assoc]

theorem settleTerm_lengthOf (t : Term Slot) :
    settleTerm (.lengthOf t) = do return "LENGTH(" ++ (← settleTerm t) ++ ")" := by
  simp [settleTerm, Term.mapM, Term.walk, Term.render, Term.fragment, Token.render, String.append_assoc]

theorem columnTerm_getLast? {sc : Scope} {own : Option String} {qualifier : Term Slot} {path : List String}
    {text : String} {r r' : Registry}
    (h : (settleTerm (columnTerm sc own qualifier path)).runOn r = (.ok text, r')) :
    text.toList.getLast? = some '"' ∨ text.toList.getLast? = some '\'' := by
  have hcolumn {name : String} {steps : List String}
      (h : (settleTerm (Term.column qualifier name steps)).runOn r = (.ok text, r')) :
      text.toList.getLast? = some '"' ∨ text.toList.getLast? = some '\'' := by
    rw [settleTerm_column] at h
    obtain ⟨x, r₁, -, h⟩ := Naming.runOn_bind_ok h
    cases h
    exact getLast?_traversal _ (getLast?_append_enclose _ _ _) steps
  unfold columnTerm at h
  split at h
  · cases h
  · split at h
    · exact hcolumn h
    · split at h
      · rw [settleTerm_list] at h
        obtain ⟨texts, r₁, h, -⟩ := Naming.runOn_bind_ok h
        rw [List.mapM_cons] at h
        obtain ⟨x, r₂, -, h⟩ := Naming.runOn_bind_ok h
        cases h
      · exact hcolumn h

theorem Expr.emit_call_term (method : Method) (receiver : Option Expr) (arguments : List Expr) (sc : Scope) (m : Mode)
    (beside : Bool) : ∃ ts, ((Expr.call method receiver arguments).emit sc m beside).term =
      .call (Template.ofMethod method arguments.length) ts := by
  rw [Expr.emit]
  split
  · exact ⟨_, rfl⟩
  · split <;> exact ⟨_, rfl⟩

/-- What stands bare never ends as a null test does. -/
theorem Expr.last_of_standsBare {e : Expr} (h : e.standsBare) {sc : Scope} {m : Mode} (hm : m.labelling = false)
    {beside : Bool} {text : String} {r r' : Registry}
    (hrun : (settleTerm (e.emit sc m beside).term).runOn r = (.ok text, r')) : text.toList.getLast? ≠ some 'L' := by
  cases e with
  | constant value =>
    have hsettle : (Slot.value value beside).settle.runOn r = (.ok text, r') := settleTerm_slot _ ▸ hrun
    cases hsettle
    obtain ⟨c, hc, hdigit⟩ := r.getLast?_token
    rintro hlast
    cases Option.some.inj (hc.symm.trans hlast)
    exact absurd hdigit (by decide)
  | member root path type =>
    rw [Expr.emit] at hrun
    split at hrun
    · cases hrun
    · simp only [memberTerm, Emitted.term, Emitted.ofTerm, caseTerm, labelIf, hm, Bool.false_and, Bool.false_eq_true,
        if_false] at hrun
      cases hdepth : lengthDepth path with
      | zero =>
        rw [hdepth, lengths] at hrun
        rcases columnTerm_getLast? hrun with hlast | hlast <;> simp [hlast]
      | succ depth =>
        rw [hdepth, lengths, settleTerm_lengthOf] at hrun
        obtain ⟨x, r₁, -, hlength⟩ := Naming.runOn_bind_ok hrun
        cases hlength
        rw [getLast?_append _ (by decide)]
        decide
  | call method receiver arguments =>
    have hmethod : method.isPredicate = false := by simpa [Expr.standsBare] using h
    obtain ⟨ts, hts⟩ := Expr.emit_call_term method receiver arguments sc m beside
    rw [hts, settleTerm_call] at hrun
    obtain ⟨texts, r₁, -, hcall⟩ := Naming.runOn_bind_ok hrun
    cases hcall
    simp [Method.getLast?_render hmethod]
  | _ => cases h

/-! ## The call and the operator -/

theorem Expr.eq_null_of_isNull {e : Expr} (h : e.isNull) : e = .constant .null := by
  cases e with
  | constant value =>
    cases value with
    | null => rfl
    | _ => cases h
  | _ => cases h

/-- Two steps that are refused alike and never give the same text give one command
only if they are refused. -/
theorem Naming.toCommand_eq_iff {x y : Naming String} {settings : Settings}
    (hrefused : ∀ e r, y.runOn (.ofSettings settings) = (.error e, r) →
      ∃ r', x.runOn (.ofSettings settings) = (.error e, r'))
    (hapart : ∀ text r r', x.runOn (.ofSettings settings) = (.ok text, r) →
      y.runOn (.ofSettings settings) ≠ (.ok text, r')) :
    x.toCommand settings = y.toCommand settings ↔ ∃ e, y.toCommand settings = .error e := by
  unfold Naming.toCommand
  rcases hy : y.runOn (.ofSettings settings) with ⟨e | text, r⟩
  · obtain ⟨r', hx⟩ := hrefused e r hy
    simp [hx]
  · rcases hx : x.runOn (.ofSettings settings) with ⟨e | text', r'⟩
    · simp
    · have hne : text' ≠ text := fun h => hapart text' r' r hx (h ▸ hy)
      simp [hne]

theorem Naming.runOn_map_error {α β : Type} {x : Naming α} {f : α → β} {e : CompileError} {r r' : Registry}
    (h : (do return f (← x) : Naming β).runOn r = (.error e, r')) : x.runOn r = (.error e, r') := by
  rw [Naming.runOn_bind] at h
  rcases hx : x.runOn r with ⟨e' | a, r₁⟩
  · rw [hx] at h
    cases h
    rfl
  · rw [hx] at h
    cases h

/-- Whether a term is refused, and why, does not depend on the registry. -/
theorem settleTerm_refused {t : Term Slot} {e : CompileError} {r r' : Registry}
    (h : (settleTerm t).runOn r = (.error e, r')) (s : Registry) :
    ∃ s', (settleTerm t).runOn s = (.error e, s') := by
  simp only [settleTerm, Naming.runOn_bind] at h ⊢
  have hfirst : t.slots.findSome? Slot.rejection? = some e := by
    rcases t.mapM_walks Slot.settle r with ⟨l, t', r₁, hrun, -⟩ | ⟨e', r₁, hrun, he⟩
    · simp only [hrun] at h
      cases h
    · simp only [hrun] at h
      cases h
      exact he.findSome?
  rcases t.mapM_walks Slot.settle s with ⟨l, t', s₁, -, hl, hv, -⟩ | ⟨e', s₁, hrun, he⟩
  · rw [← hl, hv.findSome?] at hfirst
    cases hfirst
  · cases he.findSome?.symm.trans hfirst
    exact ⟨s₁, by rw [hrun]⟩

/-- A comparison with null behind a text is no null test of it. -/
theorem equals_null_toCommand (x null : Naming String) (settings : Settings) :
    (do let a ← x; let b ← null; return a ++ " = " ++ b : Naming String).toCommand settings =
        (do return (← x) ++ " IS NULL" : Naming String).toCommand settings ↔
      ∃ e, (do return (← x) ++ " IS NULL" : Naming String).toCommand settings = .error e := by
  refine Naming.toCommand_eq_iff (fun e r h => ⟨r, ?_⟩) fun text r r' h h' => ?_
  · rw [Naming.runOn_bind, Naming.runOn_map_error h]
  · obtain ⟨a, r₁, ha, h⟩ := Naming.runOn_bind_ok h
    obtain ⟨b, r₂, -, h⟩ := Naming.runOn_bind_ok h
    obtain ⟨a', r₃, ha', h'⟩ := Naming.runOn_bind_ok h'
    cases ha.symm.trans ha'
    cases h
    have htext : a ++ " IS NULL" = a ++ " = " ++ b := by simpa [Naming.runOn_pure] using congrArg Prod.fst h'
    rw [String.append_assoc, String.append_right_inj] at htext
    simpa using congrArg String.toList htext

/-- Nor is one in front of a text that does not end as a null test does. -/
theorem null_equals_toCommand {null : Naming String} {t : Term Slot} {settings : Settings}
    (hnull : ∀ r, ∃ text r', null.runOn r = (.ok text, r'))
    (hlast : ∀ r text r', (settleTerm t).runOn r = (.ok text, r') → text.toList.getLast? ≠ some 'L') :
    (do let a ← null; let b ← settleTerm t; return a ++ " = " ++ b : Naming String).toCommand settings =
        (do return (← settleTerm t) ++ " IS NULL" : Naming String).toCommand settings ↔
      ∃ e, (do return (← settleTerm t) ++ " IS NULL" : Naming String).toCommand settings = .error e := by
  refine Naming.toCommand_eq_iff (fun e r h => ?_) fun text r r' h h' => ?_
  · obtain ⟨a, r₁, ha⟩ := hnull (.ofSettings settings)
    obtain ⟨r₂, ht⟩ := settleTerm_refused (Naming.runOn_map_error h) r₁
    exact ⟨r₂, by simp only [Naming.runOn_bind, ha, ht]⟩
  · obtain ⟨a, r₁, -, h⟩ := Naming.runOn_bind_ok h
    obtain ⟨b, r₂, hb, h⟩ := Naming.runOn_bind_ok h
    obtain ⟨b', r₃, -, h'⟩ := Naming.runOn_bind_ok h'
    cases h
    have htext : b' ++ " IS NULL" = a ++ " = " ++ b := by simpa [Naming.runOn_pure] using congrArg Prod.fst h'
    have hends : (a ++ " = " ++ b).toList.getLast? = some 'L' := by
      rw [← htext, getLast?_append _ (by decide)]
      rfl
    by_cases hempty : b.toList = []
    · simp [hempty] at hends
    · rw [getLast?_append _ hempty] at hends
      exact hlast _ _ _ hb hends

/-- **A call of `Equals` is the operator, except beside null.** Between operands
that stand bare and are not the null constant both are the same step of a
compilation in every place, so they give the same text and the same bindings. Where
an operand is null the operator is a null test of the other one and binds nothing
for it; the call compares with a parameter that is bound to null. So the two compile
to the same command exactly if neither operand is null or the other one is refused. -/
theorem equals_call_compiles (r a : Expr) (hr : r.standsBare) (ha : a.standsBare) :
    (r.isNull = false → a.isNull = false → ∀ (sc : Scope) (m : Mode) (beside : Bool),
      settleTerm ((Expr.call .equals (some r) [a]).emit sc m beside).term =
        settleTerm ((Expr.binary .equal r a).emit sc m beside).term) ∧
    (a.isNull → ∀ (sc : Scope) (m : Mode) (beside : Bool),
      settleTerm ((Expr.binary .equal r a).emit sc m beside).term = (do
        return (← settleTerm (r.emit sc m.operand false).term) ++ " IS NULL") ∧
      settleTerm ((Expr.call .equals (some r) [a]).emit sc m beside).term = do
        let x ← settleTerm (r.emit sc m.operand false).term
        let null ← (Slot.value .null (r.emit sc m.operand false).jsonText).settle
        return x ++ " = " ++ null) ∧
    (r.isNull → a.isNull = false → ∀ (sc : Scope) (m : Mode) (beside : Bool),
      settleTerm ((Expr.binary .equal r a).emit sc m beside).term = (do
        return (← settleTerm (a.emit sc m.operand false).term) ++ " IS NULL") ∧
      settleTerm ((Expr.call .equals (some r) [a]).emit sc m beside).term = do
        let null ← (Slot.value .null false).settle
        let y ← settleTerm (a.emit sc m.operand false).term
        return null ++ " = " ++ y) ∧
    ∀ (table : Table) (settings : Settings) (qualifier : Option String),
      (Expr.call .equals (some r) [a]).compile table settings qualifier =
          (Expr.binary .equal r a).compile table settings qualifier ↔
        (r.isNull = false ∧ a.isNull = false) ∨
          ∃ e, (Expr.binary .equal r a).compile table settings qualifier = .error e := by
  have hconstant (sc : Scope) (m : Mode) (beside : Bool) :
      settleTerm ((Expr.constant .null).emit sc m beside).term = (Slot.value .null beside).settle := settleTerm_slot _
  refine ⟨fun hnr hna sc m beside => ?_, fun hna sc m beside => ⟨settleTerm_equal_null hr hna sc m beside, ?_⟩,
    fun hnr hna sc m beside => ⟨settleTerm_null_equal hnr ha hna sc m beside, ?_⟩, fun table settings qualifier => ?_⟩
  · rw [settleTerm_equals, settleTerm_equal hr ha hnr hna]
  · rw [settleTerm_equals, a.eq_null_of_isNull hna]
    simp only [hconstant]
  · rw [settleTerm_equals, r.eq_null_of_isNull hnr]
    simp only [hconstant]
    rfl
  · rw [Expr.compile, Expr.compile]
    rcases hna : a.isNull with _ | _
    · rcases hnr : r.isNull with _ | _
      · simp [settleTerm_equals, settleTerm_equal hr ha hnr hna]
      · -- the text of the argument is behind the parameter that is bound to null
        rw [settleTerm_equals, settleTerm_null_equal hnr ha hna, r.eq_null_of_isNull hnr, hconstant,
          show ((Expr.constant .null).emit _ _ _).jsonText = false from rfl,
          null_equals_toCommand (fun r => ⟨_, _, Slot.settle_value .null false r⟩)
            fun _ _ _ hrun => Expr.last_of_standsBare ha rfl hrun]
        simp
    · rw [settleTerm_equals, settleTerm_equal_null hr hna, equals_null_toCommand]
      simp

theorem documentKey_equals_compiles :
    (Expr.member none ["doc", "k"] .unknown).standsBare ∧ (Expr.constant (.int 1)).standsBare ∧
    (Expr.call .equals (some (.member none ["doc", "k"] .unknown)) [.constant (.int 1)]).compile plainTable {} none =
      .ok ⟨"\"t\".\"doc\"->>'k' = @p0", ⟨[("p0", ⟨.int 1, some .text⟩)]⟩⟩ := by
  refine ⟨rfl, rfl, ?_⟩
  rw [((equals_call_compiles _ _ rfl rfl).2.2.2 plainTable {} none).2 (.inl ⟨rfl, rfl⟩)]
  rfl

/-- The operator tests the member, the call binds null. -/
theorem nullArgument_equals_compiles :
    (Expr.member none ["a"] .unknown).standsBare ∧ (Expr.constant .null).standsBare ∧
    (Expr.binary .equal (.member none ["a"] .unknown) (.constant .null)).compile plainTable {} none =
      .ok ⟨"\"t\".\"a\" IS NULL", ⟨[]⟩⟩ ∧
    (Expr.call .equals (some (.member none ["a"] .unknown)) [.constant .null]).compile plainTable {} none =
      .ok ⟨"\"t\".\"a\" = @p0", ⟨[("p0", ⟨.null, none⟩)]⟩⟩ :=
  ⟨rfl, rfl, rfl, rfl⟩

end ParamQuery
