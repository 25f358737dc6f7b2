/-
Conversions. They are written as their operand, and whether an operand is put in
parentheses is decided without looking through them. So a conversion between an
operator and an operand that would need parentheses hides the operand: the text
is that of another grouping (`convertedSum_regrouped`).

Where no conversion hides anything from what is around it (`Expr.sheltered`), an
expression compiles to the command of the expression without its conversions,
and is read back as that (`compile_conversions`).
-/
import ParamQuery.Proofs.Grouping

namespace ParamQuery

open Sql

/-! ## Erasing conversions -/

/-- The expression without the conversions of its operands. -/
def Expr.unconverted : Expr → Expr
  | .binary op left right => .binary op left.unconverted right.unconverted
  | .conditional test ifTrue ifFalse => .conditional test.unconverted ifTrue.unconverted ifFalse.unconverted
  | .unary .not operand => .unary .not operand.unconverted
  | .unary .convert operand => operand.unconverted
  | .unary .typeAs operand => operand.unconverted
  | e => e

/-- Whether the expression is a conditional. -/
def Expr.isConditional : Expr → Bool
  | .conditional _ _ _ => true
  | _ => false

@[simp] theorem Expr.valueType_unconverted (e : Expr) : e.unconverted.valueType = e.valueType := by
  induction e using Expr.induction with
  | binary op left right ihl ihr => simp [Expr.unconverted, Expr.valueType, ihl, ihr]
  | conditional test ifTrue ifFalse _ ihT ihF => simp [Expr.unconverted, Expr.valueType, ihT, ihF]
  | unary op operand ih => cases op <;> simp [Expr.unconverted, Expr.valueType, ih]
  | source | subquery | constant | member | call | project => rfl

@[simp] theorem Expr.isConcatenation_unconverted (op : BinaryOp) (left right : Expr) :
    Expr.isConcatenation op left.unconverted right.unconverted = Expr.isConcatenation op left right := by
  simp [Expr.isConcatenation]

/-! ## Conversions that hide nothing -/

/-- Whether an operand stands in the parentheses that it would have without
conversions. -/
def Expr.keepsParens (op : BinaryOp) (concat : Bool) (precedence : Nat) (onRight : Bool) (m : Mode) (operand : Expr) :
    Bool :=
  needsParens op concat precedence onRight m operand == needsParens op concat precedence onRight m operand.unconverted

/-- Whether a conversion hides nothing from what is around it: no operand that
needs parentheses there, no null from a comparison, and no conditional from the
one that it is a branch of. -/
def Expr.sheltered (m : Mode) : Expr → Bool
  | .binary op left right =>
    let concat := Expr.isConcatenation op left right
    let precedence := if concat then otherPrecedence else op.precedence
    left.sheltered m.operand && right.sheltered m.operand &&
      (left.keepsParens op concat precedence false m.operand &&
        right.keepsParens op concat precedence true m.operand) &&
      (!op.isEquality || left.isNull == left.unconverted.isNull && right.isNull == right.unconverted.isNull)
  | .conditional test ifTrue ifFalse =>
    test.sheltered m.inCase && ifTrue.sheltered m.inCase && ifFalse.sheltered m.inCase &&
      (ifTrue.isConditional == ifTrue.unconverted.isConditional &&
        ifFalse.isConditional == ifFalse.unconverted.isConditional)
  | .unary .not operand => operand.sheltered m.operand
  | .unary .convert operand => operand.sheltered m
  | .unary .typeAs operand => operand.sheltered m
  | _ => true

/-- On which side an operand of a comparison stands does not matter. -/
theorem needsParens_comparison {op : BinaryOp} (h : op.isComparison) (concat : Bool) (precedence : Nat) (m : Mode)
    (e : Expr) :
    needsParens op concat precedence true m e = needsParens op concat precedence false m e := by
  unfold needsParens
  cases e.precedence? m with
  | none => rfl
  | some p => simp [h]

/-- What is no conditional is written as one term. -/
theorem Expr.tree_emit_of_not_conditional {e : Expr} (h : e.isConditional = false) (sc : Scope) (m : Mode)
    (beside : Bool) : (e.emit sc m beside).tree = .leaf (e.emit sc m beside).term := by
  refine Expr.tree_eq_leaf ?_ sc m beside
  rintro test ifTrue ifFalse rfl
  cases h

/-- The same emission, up to whether a conditional stands open for the one around
it. -/
structure Emitted.Same (sc : Scope) (m : Mode) (beside : Bool) (e e' : Expr) : Prop where
  term : (e.emit sc m beside).term = (e'.emit sc m beside).term
  jsonText : (e.emit sc m beside).jsonText = (e'.emit sc m beside).jsonText
  tree : e.isConditional = e'.isConditional → (e.emit sc m beside).tree = (e'.emit sc m beside).tree

/-- Of two expressions that are no conditionals only the terms count. -/
theorem Emitted.same_of_term {sc : Scope} {m : Mode} {beside : Bool} {e e' : Expr} (he : e.isConditional = false)
    (hterm : (e.emit sc m beside).term = (e'.emit sc m beside).term)
    (hjson : (e.emit sc m beside).jsonText = (e'.emit sc m beside).jsonText) : Emitted.Same sc m beside e e' where
  term := hterm
  jsonText := hjson
  tree h := by
    rw [Expr.tree_emit_of_not_conditional he, Expr.tree_emit_of_not_conditional (h.symm.trans he), hterm]

/-- **Conversions that hide nothing leave no trace.** -/
theorem Expr.emit_unconverted {e : Expr} {m : Mode} (h : e.sheltered m) (sc : Scope) (beside : Bool) :
    Emitted.Same sc m beside e e.unconverted := by
  induction e using Expr.induction generalizing m beside with
  | source | subquery | constant | member | call | project => exact ⟨rfl, rfl, fun _ => rfl⟩
  | binary op left right ihl ihr =>
    simp only [Expr.sheltered, Bool.and_eq_true, Expr.keepsParens, beq_iff_eq, Bool.or_eq_true, Bool.not_eq_true'] at h
    obtain ⟨⟨⟨hl, hr⟩, hpl, hpr⟩, hnull⟩ := h
    have hjson : ∀ left right : Expr, ((Expr.binary op left right).emit sc m beside).jsonText = false := by
      intro left right
      simp only [Expr.emit]
      split
      · rfl
      · split <;> rfl
    refine Emitted.same_of_term rfl ?_ ((hjson _ _).trans (hjson _ _).symm)
    have hoperator : Expr.operatorOf op left.unconverted right.unconverted = Expr.operatorOf op left right := by
      simp [Expr.operatorOf]
    have hoperands : ∀ b, (right.emit sc m.operand b).term = (right.unconverted.emit sc m.operand b).term :=
      fun b => (ihr hr b).term
    rw [Expr.unconverted, Expr.term_binary, Expr.term_binary]
    simp only [Expr.isConcatenation_unconverted, hoperator, level_operatorFor]
    by_cases hop : op.isEquality
    · obtain ⟨hnl, hnr⟩ := hnull.resolve_left (by simp [hop])
      have hcomparison : op.isComparison := by
        cases op <;> first | rfl | cases hop
      have hconcat : Expr.isConcatenation op left right = false := by
        cases op <;> first | rfl | cases hop
      have hprecedence : op.precedence = comparisonPrecedence := by
        cases op <;> first | rfl | cases hop
      simp only [hconcat, Bool.false_eq_true, if_false, hprecedence] at hpl hpr
      have hpr' := hpr
      rw [needsParens_comparison hcomparison, needsParens_comparison hcomparison] at hpr'
      simp only [hnl, hnr, hconcat, Bool.false_eq_true, if_false, hprecedence, hpl, hpr, hpr', (ihl hl false).term,
        (ihl hl false).jsonText, hoperands]
    · simp only [hop, Bool.false_and, Bool.false_eq_true, if_false, hpl, hpr, (ihl hl false).term,
        (ihl hl false).jsonText, hoperands]
  | conditional test ifTrue ifFalse ihc ihT ihF =>
    simp only [Expr.sheltered, Bool.and_eq_true, beq_iff_eq] at h
    obtain ⟨⟨⟨hc, hT⟩, hF⟩, hcT, hcF⟩ := h
    have htree : ((Expr.conditional test ifTrue ifFalse).emit sc m beside).tree =
        ((Expr.conditional test ifTrue ifFalse).unconverted.emit sc m beside).tree := by
      simp only [Expr.unconverted, Expr.emit, (ihc hc false).term, (ihT hT false).tree hcT, (ihF hF false).tree hcF]
    exact ⟨congrArg caseTerm htree, rfl, fun _ => htree⟩
  | unary op operand ih =>
    cases op with
    | not =>
      have hsame := ih h beside
      refine Emitted.same_of_term rfl ?_ ?_
      · simp only [Expr.unconverted, Expr.emit, hsame.term, hsame.jsonText]
      · simp only [Expr.unconverted, Expr.emit, hsame.jsonText]
        rfl
    | convert | typeAs =>
      have hsame := ih h beside
      exact Emitted.same_of_term rfl hsame.term hsame.jsonText

/-! ## Reading back -/

/-- **Conversions leave no trace in the grouping** where they hide nothing from
what is around them. The expression compiles to the command of the expression
without them, and its text is read back as the tree of that expression, up to the
grouping of chains of one associative operator, as any text is. -/
theorem compile_conversions {e : Expr} {table : Table} {settings : Settings} {qualifier : Option String} {cmd : Command}
    (hplain : e.unconverted.Plain) (hsheltered : e.sheltered {}) (hstem : IsIdentifier settings.stem)
    (hnames : ∀ n ∈ e.filterNames, IsIdentifier n) (h : e.compile table settings qualifier = .ok cmd) :
    e.unconverted.compile table settings qualifier = .ok cmd ∧
    ∃ (run : List (Slot × String)) (r : Registry) (t : Tree Head (Atom × List Word)) (read : ReadTree),
      Visits Slot.settle (.ofSettings settings) run r ∧ cmd.parameters = r.parameters ∧
      t.map id Prod.fst = e.unconverted.tree ∧
      (∀ p ∈ t.leaves, p.1.ReadFrom (.ofSettings table settings qualifier) run p.2) ∧
      readExpression cmd.text = some read ∧
      (read.normal = (t.map Head.words Prod.snd).normal ↔ e.unconverted.tree.unbroken) := by
  have hterm := (Expr.emit_unconverted hsheltered (.ofSettings table settings qualifier) false).term
  exact ⟨by rw [← h, Expr.compile, Expr.compile, hterm], hplain.compile_reading hterm hstem hnames h⟩

/-- Conversions around operands, a branch and a negated test. -/
def convertedTests : Expr :=
  .conditional
    (.binary .lessThan
      (.unary .convert (.binary .multiply (.constant (.int 1)) (.unary .typeAs (.constant (.int 2)))))
      (.unary .typeAs (.unary .convert (.member none ["d", "k"] .integer))))
    (.unary .convert (.constant (.int 3)))
    (.unary .not (.unary .convert (.binary .equal (.member none ["a"] .integer) (.constant .null))))

theorem convertedTests_plain : convertedTests.unconverted.Plain :=
  .conditional (.binary _ (.binary _ (.constant _) (.constant _)) (.member _ _ (by simp))) (.constant _)
    (.not (.binary _ (.member _ _ (by simp)) (.constant _)))

theorem convertedTests_text : (convertedTests.compile plainTable {} none).toOption.map (·.text) =
    some "CASE WHEN @p0 * @p1 < \"t\".\"d\"->>'k' THEN @p2 ELSE NOT (\"t\".\"a\" IS NULL) END" := by
  decide +kernel

theorem convertedTests_reading :
    convertedTests.unconverted.Plain ∧ convertedTests.sheltered {} ∧ convertedTests.unconverted.tree.unbroken ∧
      ∃ (cmd : Command) (t : Tree Head (Atom × List Word)) (read : ReadTree),
        convertedTests.compile plainTable {} none = .ok cmd ∧ t.map id Prod.fst = convertedTests.unconverted.tree ∧
        readExpression cmd.text = some read ∧ read.normal = (t.map Head.words Prod.snd).normal := by
  have htext := convertedTests_text
  cases hc : convertedTests.compile plainTable {} none with
  | error e =>
    rw [hc] at htext
    cases htext
  | ok cmd =>
    have hsheltered : convertedTests.sheltered {} := by decide
    have hunbroken : convertedTests.unconverted.tree.unbroken := by decide
    obtain ⟨-, -, -, t, read, -, -, htree, -, hread, hnormal⟩ :=
      compile_conversions convertedTests_plain hsheltered (by decide) (by decide) hc
    exact ⟨convertedTests_plain, hsheltered, hunbroken, cmd, t, read, rfl, htree, hread, hnormal.2 hunbroken⟩

/-- A product with a converted sum. -/
def convertedSum : Expr :=
  .binary .multiply (.unary .convert (.binary .add (.constant (.int 1)) (.constant (.int 2)))) (.constant (.int 3))

theorem convertedSum_text : (convertedSum.compile plainTable {} none).toOption.map (·.text) =
    some "@p0 + @p1 * @p2" := by
  decide +kernel

/-- The factor is taken of the second summand alone. -/
theorem convertedSum_regrouped :
    convertedSum.unconverted.Plain ∧ convertedSum.unconverted.tree.unbroken ∧
      ∃ (cmd : Command) (read : ReadTree), convertedSum.compile plainTable {} none = .ok cmd ∧
        cmd.text = "@p0 + @p1 * @p2" ∧ readExpression cmd.text = some read ∧
        ∀ t : Tree Head (Atom × List Word), t.map id Prod.fst = convertedSum.unconverted.tree →
          read.normal ≠ (t.map Head.words Prod.snd).normal := by
  have htext := convertedSum_text
  cases hc : convertedSum.compile plainTable {} none with
  | error e =>
    rw [hc] at htext
    cases htext
  | ok cmd =>
    rw [hc] at htext
    have htext : cmd.text = "@p0 + @p1 * @p2" := Option.some.inj htext
    have hread : readExpression "@p0 + @p1 * @p2" =
        some (.operation (.binary (.operator .add)) (.leaf [.parameter '@' "p0"])
          (.operation (.binary (.operator .multiply)) (.leaf [.parameter '@' "p1"])
            (.leaf [.parameter '@' "p2"]))) := by
      rfl
    refine ⟨.binary _ (.binary _ (.constant _) (.constant _)) (.constant _), by decide, cmd, _, rfl, htext,
      htext ▸ hread, fun t ht => ?_⟩
    obtain ⟨a, b, rfl, -, hb⟩ := Tree.eq_operation_of_map id Prod.fst ht
    -- the factor is a leaf, so the product stays on top
    cases b with
    | operation | negation | nullTest | paren | group => cases hb
    | leaf b =>
      intro hnormal
      cases hnormal

end ParamQuery
