/-
The operator trees of expressions. `Expr.tree` is what an expression means to
the grammar: its operators, with null tests for comparisons with null, one group
for each call, and one for a conditional with the arms that it is flattened to.

`Shaped` says that emission writes this tree, with the parentheses that it needs.
Here it is shown of an operation, given that it holds of the operands: what
`needsParens` leaves without parentheses binds strongly enough, and what it puts
in them does not.
-/
import ParamQuery.Proofs.CaseArms
import ParamQuery.Proofs.EmitInline
import ParamQuery.Proofs.OperatorText

namespace ParamQuery

open Sql

/-! ## Trees -/

/-- What stands at the leaves of the tree of an expression. -/
inductive Atom where
  /-- An expression as a whole. -/
  | expr (e : Expr)
  /-- A column of a source. -/
  | column (root : Option Source) (base : String)
  /-- A key of a document. -/
  | key (s : String)

section Shapes

variable {α : Type}

/-- Trees that hold together. -/
def allOf : List (Tree Head α) → Tree Head α
  | [] => .group [] []
  | t :: ts => ts.foldl (.operation (.binary (.operator .andAlso))) t

/-- The keywords behind the first guard of so many arms. -/
def armKeywords : Nat → Head
  | 0 => [[" END"]]
  | 1 => [[" THEN "], [" ELSE "], [" END"]]
  | n + 2 => [" THEN "] :: [" WHEN "] :: armKeywords (n + 1)

/-- Arms, and what stands behind them, as one `CASE`. -/
def caseGroup (arms : List (Tree Head α × Tree Head α)) (otherwise : Tree Head α) : Tree Head α :=
  .group (["CASE", " WHEN "] :: armKeywords arms.length) (arms.flatMap (fun arm => [arm.1, arm.2]) ++ [otherwise])

/-- A decision as a tree: a leaf is itself, anything else one `CASE`. `guard`
puts the guards of an arm together. -/
def caseTree (guard : List (Tree Head α) → Tree Head α) : Decision (Tree Head α) → Tree Head α
  | .leaf t => t
  | d => caseGroup (d.flatten.1.map fun arm => (guard arm.1, arm.2)) d.flatten.2

/-- The way into a document; the last step gives text. -/
def arrows (key : String → α) (t : Tree Head α) : List String → Tree Head α
  | [] => t
  | [last] => .operation (.arrow true) t (.leaf (key last))
  | step :: rest => arrows key (.operation (.arrow false) t (.leaf (key step))) rest

/-- The length of the length of … a tree. -/
def lengthsTree : Nat → Tree Head α → Tree Head α
  | 0, t => t
  | n + 1, t => .group [["LENGTH("], [")"]] [lengthsTree n t]

/-- A member: its column, the way into it, and the lengths that are taken. -/
def memberTree (column key : String → α) (path : List String) : Tree Head α :=
  let depth := lengthDepth path
  let inner := path.take (path.length - depth)
  lengthsTree depth (arrows key (.leaf (column (inner.headD ""))) (inner.drop 1))

end Shapes

namespace Method

/-- The keywords of a trimming. -/
def trimKeywords (opening : String) (arguments : Nat) : Head :=
  if arguments = 0 then [[opening, " from "], [")"]] else [[opening], [" from "], [")"]]

/-- The keywords around the operands of a call, if it is written as a call. -/
def keywords? (m : Method) (arguments : Nat) : Option Head :=
  match m with
  | .toLower => some [["LOWER("], [")"]]
  | .toUpper => some [["UPPER("], [")"]]
  | .reverse => some [["REVERSE("], [")"]]
  | .length => some [["LENGTH("], [")"]]
  | .concat => some (["CONCAT("] :: (List.replicate (arguments - 1) [", "] ++ [[")"]]))
  | .replace => some [["REPLACE("], [", "], [", "], [")"]]
  | .trim => some (trimKeywords "TRIM(both " arguments)
  | .trimStart => some (trimKeywords "TRIM(leading " arguments)
  | .trimEnd => some (trimKeywords "TRIM(trailing " arguments)
  | .equals | .substring | .contains | .startsWith | .endsWith => none

/-- Whether the argument stands in front of the receiver. -/
def isTrim : Method → Bool
  | .trim | .trimStart | .trimEnd => true
  | _ => false

/-- The operands of a call in the order in which they are written. -/
def operands {τ : Type} (m : Method) (receiver : Option τ) (arguments : List τ) : List τ :=
  if m.isTrim then arguments ++ receiver.toList else receiver.toList ++ arguments

end Method

/-- The operator that a binary expression is written with. -/
def Expr.operatorOf (op : BinaryOp) (left right : Expr) : Infix :=
  if Expr.isConcatenation op left right then .concat else .operator op

mutual
/-- The branches of a conditional as trees, or a single tree. -/
def Expr.branches : Expr → Decision (Tree Head Atom)
  | .binary op left right => .leaf <|
    if op.isEquality && right.isNull then .nullTest (caseTree allOf left.branches) (op == .notEqual)
    else if op.isEquality && left.isNull then .nullTest (caseTree allOf right.branches) (op == .notEqual)
    else .operation (.binary (Expr.operatorOf op left right)) (caseTree allOf left.branches)
      (caseTree allOf right.branches)
  | .conditional test ifTrue ifFalse => .test (caseTree allOf test.branches) ifTrue.branches ifFalse.branches
  | .member root path _ => .leaf (memberTree (.column root) .key path)
  | .call method receiver arguments => .leaf <|
    match method.keywords? arguments.length with
    | some head => .group head (method.operands (optionTree receiver) (eachTree arguments))
    | none => .leaf (.expr (.call method receiver arguments))
  | .unary .not operand => .leaf (.negation (caseTree allOf operand.branches))
  | e => .leaf (.leaf (.expr e))
/-- The tree of an expression that may be missing. -/
def optionTree : Option Expr → Option (Tree Head Atom)
  | none => none
  | some e => some (caseTree allOf e.branches)
/-- The trees of some expressions, in order. -/
def eachTree : List Expr → List (Tree Head Atom)
  | [] => []
  | e :: es => caseTree allOf e.branches :: eachTree es
end

/-- The operator tree of an expression. -/
def Expr.tree (e : Expr) : Tree Head Atom := caseTree allOf e.branches

/-- The tokens of a leaf. -/
def Atom.Tokens (sc : Scope) : Atom → Fragment Slot → Prop
  | .expr (.constant v), f => ∃ asText, f = [.slot (.value v asText)]
  | .expr (.subquery q), f => f = Fragment.parenthesized (q.emit sc).frame.statement
  | .expr _, _ => False
  | .column root base, f =>
    let own := root.bind (·.table)
    f = Fragment.qualified (sc.tableName own) (((sc.column? own base).map (·.dbName)).getD base)
  | .key s, f => f = [.key s]

/-- The expressions that are made of operators, conditionals and calls of
functions; inside a query there can be anything. -/
inductive Expr.Plain : Expr → Prop
  | constant (v : Literal) : Plain (.constant v)
  | subquery (q : Query) : Plain (.subquery q)
  | member {root : Option Source} (path : List String) (type : ValueType) (h : ∀ s ∈ root, s.groupJoin.isNone) :
      Plain (.member root path type)
  | binary (op : BinaryOp) {left right : Expr} (hl : Plain left) (hr : Plain right) : Plain (.binary op left right)
  | not {operand : Expr} (h : Plain operand) : Plain (.unary .not operand)
  | conditional {test ifTrue ifFalse : Expr} (h : Plain test) (hT : Plain ifTrue) (hF : Plain ifFalse) :
      Plain (.conditional test ifTrue ifFalse)
  | call {method : Method} {receiver : Option Expr} {arguments : List Expr}
      (hkeywords : (method.keywords? arguments.length).isSome)
      (hcall : Expr.callOf method receiver arguments = .ok (.call method receiver arguments))
      (hr : ∀ e ∈ receiver, Plain e) (ha : ∀ e ∈ arguments, Plain e) : Plain (.call method receiver arguments)

theorem Expr.branches_eq (e : Expr) : e.branches = e.decision.map Expr.tree := by
  induction e using Expr.induction with
  | conditional test ifTrue ifFalse _ ihT ihF =>
    rw [Expr.branches, Expr.decision, Decision.map, ihT, ihF]
    rfl
  | unary op operand _ => cases op <;> rfl
  | source s _ | subquery q _ | binary op left right _ _ | constant v | member root path type _
  | call method receiver arguments _ _ | project items _ => rfl

theorem optionTree_eq_map (o : Option Expr) : optionTree o = o.map Expr.tree := by
  cases o <;> rfl

theorem eachTree_eq_map (es : List Expr) : eachTree es = es.map Expr.tree := by
  induction es with
  | nil => rfl
  | cons e es ih =>
    rw [eachTree, ih]
    rfl

/-! ## Writing a tree -/

/-- A fragment that is the text of a tree whose parentheses fit. -/
structure Written (sc : Scope) (f : Fragment Slot) (t : Tree Head (Atom × Fragment Slot)) : Prop where
  fragment : f = t.fragment Prod.snd
  fits : t.Fits
  laid : t.Laid
  leaves : ∀ p ∈ t.leaves, p.1.Tokens sc p.2

theorem Written.own {sc : Scope} {f : Fragment Slot} {t : Tree Head (Atom × Fragment Slot)} (h : Written sc f t) :
    Written sc (t.fragment Prod.snd) t := ⟨rfl, h.fits, h.laid, h.leaves⟩

theorem Written.of_eq {sc : Scope} {f g : Fragment Slot} {t : Tree Head (Atom × Fragment Slot)} (h : Written sc f t)
    (hg : g = f) : Written sc g t := hg ▸ h

/-- The tree of what is written, without its parentheses. -/
def shapeOf (t : Tree Head (Atom × Fragment Slot)) : Tree Head Atom := (t.map id Prod.fst).strip

/-- How an expression stands in its text: as strongly bound as its precedence
says, with the operator of a binary expression on top. -/
structure Binds {α : Type} (m : Mode) (e : Expr) (t : Tree Head α) : Prop where
  atom : e.precedence? m = none → t.level = Operator.atomLevel
  level : ∀ p, e.precedence? m = some p → t.level = p ∨ p = 0 ∧ t.level = Operator.atomLevel
  operation : ∀ op left right, e = .binary op left right → op.isEquality = false →
    ∃ a b, t = .operation (.binary (Expr.operatorOf op left right)) a b
  top : ∀ i, t.top = some (.binary i) → ∃ op left right, e = .binary op left right ∧ i = Expr.operatorOf op left right
  bare : ∀ x, t ≠ .paren x

/-- What is to be shown of an expression wherever it is written. -/
def Shaped (sc : Scope) (e : Expr) : Prop :=
  ∀ (m : Mode) (beside : Bool), m.labelling = false → (e.emit sc m beside).term.Accepted →
    ∃ t, Written sc (e.emit sc m beside).term.fragment t ∧ shapeOf t = e.tree ∧ Binds m e t

/-! ## Operands -/

section Operands

variable {α : Type} {m : Mode} {e : Expr} {t : Tree Head α} {op : BinaryOp} {concat : Bool}

/-- The operator between two operands. -/
def operatorFor (op : BinaryOp) (concat : Bool) : Operator := .binary (if concat then .concat else .operator op)

/-- The precedence that operands are compared with is the level of the operator. -/
theorem level_operatorFor (op : BinaryOp) (concat : Bool) :
    (operatorFor op concat).level = if concat then otherPrecedence else op.precedence := by
  cases concat with
  | true => rfl
  | false => cases op <;> rfl

theorem level_eq_comparisonLevel_iff (hconcat : concat → op = .add) :
    (operatorFor op concat).level = Operator.comparisonLevel ↔ op.isComparison := by
  cases concat with
  | true =>
    rw [hconcat rfl]
    decide
  | false => cases op <;> decide

theorem isAssociative_operatorFor (hconcat : concat → op = .add) :
    (operatorFor op concat).isAssociative = op.isAssociative := by
  cases concat with
  | true =>
    rw [hconcat rfl]
    rfl
  | false => cases op <;> rfl

theorem eq_add_of_isConcatenation {left right : Expr} (h : Expr.isConcatenation op left right) : op = .add := by
  simp only [Expr.isConcatenation, Bool.and_eq_true, beq_iff_eq] at h
  exact h.1

/-- The operations of one operator. -/
theorem isOperation_iff (hconcat : concat → op = .add) {op' : BinaryOp} {left right : Expr} :
    (Expr.binary op' left right).isOperation op concat ↔
      .binary (Expr.operatorOf op' left right) = operatorFor op concat := by
  have hconcat' : Expr.isConcatenation op' left right → op' = .add := eq_add_of_isConcatenation
  simp only [Expr.isOperation, Bool.and_eq_true, beq_iff_eq, Expr.operatorOf, operatorFor]
  cases concat <;> cases hc : Expr.isConcatenation op' left right <;> simp_all

/-- What is known of an operand in parentheses, and of one without. -/
theorem needsParens_cases (op : BinaryOp) (concat : Bool) (precedence : Nat) (onRight : Bool) (m : Mode) (e : Expr) :
    (needsParens op concat precedence onRight m e = false ∧
      (e.precedence? m = none ∨ ∃ p, e.precedence? m = some p ∧ (precedence < p ∨
        p = precedence ∧ op.isComparison = false ∧
          (onRight → e.isOperation op concat = true ∧ op.isAssociative = true)))) ∨
    (needsParens op concat precedence onRight m e = true ∧ ∃ p, e.precedence? m = some p ∧ (p < precedence ∨
      p = precedence ∧ (op.isComparison = false →
        onRight ∧ (op.isAssociative = true → e.isOperation op concat = false)))) := by
  unfold needsParens
  cases hp : e.precedence? m with
  | none => exact .inl ⟨rfl, .inl rfl⟩
  | some p =>
    by_cases hlt : p < precedence
    · exact .inr ⟨by simp [hlt.ne, hlt], p, rfl, .inl hlt⟩
    · by_cases hne : p = precedence
      · subst hne
        cases hc : op.isComparison with
        | true => exact .inr ⟨by simp, p, rfl, .inr ⟨rfl, by simp⟩⟩
        | false =>
          simp only [ne_eq, not_true, if_false, Bool.false_eq_true]
          cases onRight <;> cases e.isOperation op concat <;> cases op.isAssociative <;> simp
      · exact .inl ⟨by simp [hne, hlt], .inr ⟨p, rfl, .inl (by omega)⟩⟩

/-- A tree, in parentheses if need be. -/
def parenTree (wrap : Bool) (t : Tree Head α) : Tree Head α := if wrap then .paren t else t

/-- A tree in which an operator is on top has the level of the operator. -/
theorem Binds.level_of_top (h : Binds m e t) {o : Operator} (ho : o ∈ t.top) : t.level = o.level := by
  cases t with
  | operation o' a b =>
    cases ho
    rfl
  | paren x => exact absurd rfl (h.bare x)
  | leaf a | negation x | nullTest x negated | group head parts => cases ho

theorem Binds.fitsLeft (h : Binds m e t) (hconcat : concat → op = .add) :
    FitsLeft (operatorFor op concat)
      (parenTree (needsParens op concat (operatorFor op concat).level false m e) t) := by
  have hatom := (operatorFor op concat).level_lt_atomLevel
  rcases needsParens_cases op concat (operatorFor op concat).level false m e with
    ⟨hparens, hcases⟩ | ⟨hparens, p, hp, hcases⟩
  · rw [hparens]
    have hlevel : (operatorFor op concat).level < t.level ∨
        (operatorFor op concat).level = t.level ∧ op.isComparison = false := by
      rcases hcases with hnone | ⟨p, hp, hlt | ⟨heq, hcomparison, -⟩⟩
      · exact .inl (h.atom hnone ▸ hatom)
      · rcases h.level p hp with hlevel | ⟨hzero, -⟩ <;> omega
      · rcases h.level p hp with hlevel | ⟨-, hlevel⟩
        · exact .inr ⟨by omega, hcomparison⟩
        · exact .inl (hlevel ▸ hatom)
    refine ⟨?_, fun hcomparison => hlevel.resolve_right fun hequal => ?_, fun x hx => absurd hx (h.bare x)⟩
    · rcases hlevel with hlt | ⟨heq, -⟩
      · exact hlt.le
      · exact heq.le
    · rw [(level_eq_comparisonLevel_iff hconcat).1 hcomparison] at hequal
      cases hequal.2
  · rw [hparens]
    refine ⟨hatom.le, fun _ => hatom, ?_⟩
    rintro x ⟨⟩ - hcomparison o ho
    have htop := h.level_of_top ho
    have hbelow := o.level_lt_atomLevel
    rcases h.level p hp with hlevel | ⟨-, hlevel⟩
    · rcases hcases with hlt | ⟨heq, hright⟩
      · omega
      · have hne : op.isComparison = false := by
          simpa using mt (level_eq_comparisonLevel_iff hconcat).2 hcomparison
        cases (hright hne).1
    · omega

theorem Binds.fitsRight (h : Binds m e t) (hconcat : concat → op = .add) :
    FitsRight (operatorFor op concat)
      (parenTree (needsParens op concat (operatorFor op concat).level true m e) t) := by
  have hatom := (operatorFor op concat).level_lt_atomLevel
  have hassoc := isAssociative_operatorFor hconcat
  rcases needsParens_cases op concat (operatorFor op concat).level true m e with
    ⟨hparens, hcases⟩ | ⟨hparens, p, hp, hcases⟩
  · rw [hparens]
    refine ⟨?_, fun x hx => absurd hx (h.bare x)⟩
    rcases hcases with hnone | ⟨p, hp, hlt | ⟨-, -, hsame⟩⟩
    · exact .inl (h.atom hnone ▸ hatom)
    · have hlevel : (operatorFor op concat).level < t.level := by
        rcases h.level p hp with hlevel | ⟨hzero, -⟩ <;> omega
      exact .inl hlevel
    · -- the same associative operator goes on
      obtain ⟨hop, hop'⟩ := hsame rfl
      have hequality : op.isEquality = false := by
        cases op <;> first | rfl | cases hop'
      refine .inr ⟨hassoc.trans hop', ?_⟩
      cases e with
      | binary op' left right =>
        have hsame : op' = op := by
          simp only [Expr.isOperation, Bool.and_eq_true, beq_iff_eq] at hop
          exact hop.1
        obtain ⟨a, b, rfl⟩ := h.operation op' left right rfl (hsame ▸ hequality)
        rw [(isOperation_iff hconcat).1 hop]
        exact ⟨a, b, rfl⟩
      | source | subquery | conditional | constant | member | call | project | unary => cases hop
  · rw [hparens]
    refine ⟨.inl hatom, ?_⟩
    rintro x ⟨⟩ hop - htop
    have hlevel := h.level_of_top htop
    have hcomparison : op.isComparison = false := by
      cases hc : op.isComparison with
      | false => rfl
      | true =>
        rw [Operator.not_isAssociative_of_comparison ((level_eq_comparisonLevel_iff hconcat).2 hc)] at hop
        cases hop
    rcases hcases with hlt | ⟨-, hright⟩
    · rcases h.level p hp with hp | ⟨-, hp⟩ <;> omega
    · obtain ⟨op', left, right, rfl, hi⟩ := h.top _ htop
      have hother := (hright hcomparison).2 (hassoc ▸ hop)
      rw [(isOperation_iff hconcat).2 (congrArg Operator.binary hi.symm)] at hother
      cases hother

/-- What is tested for null binds more strongly than the test. -/
theorem Binds.level_nullTest (h : Binds m e t) (hop : op.isEquality) :
    Operator.comparisonLevel < (parenTree (needsParens op false comparisonPrecedence false m e) t).level := by
  have hcomparison : op.isComparison = true := by
    cases op <;> first | rfl | cases hop
  rcases needsParens_cases op false comparisonPrecedence false m e with ⟨hparens, hcases⟩ | ⟨hparens, -⟩
  · rw [hparens]
    show Operator.comparisonLevel < t.level
    rcases hcases with hnone | ⟨p, hp, hlt | ⟨-, hne, -⟩⟩
    · rw [h.atom hnone]
      decide
    · have hlevel : p = 0 ∨ t.level = p := (h.level p hp).symm.imp_left And.left
      have hlevel' : Operator.comparisonLevel = comparisonPrecedence := rfl
      omega
    · rw [hcomparison] at hne
      cases hne
  · rw [hparens]
    exact (by decide : Operator.comparisonLevel < Operator.atomLevel)

end Operands

section Constructs

variable {sc : Scope}

theorem Written.paren {f : Fragment Slot} {t : Tree Head (Atom × Fragment Slot)} (h : Written sc f t) :
    Written sc (Fragment.parenthesized f) (.paren t) :=
  ⟨congrArg Fragment.parenthesized h.fragment, .paren h.fits, .paren h.laid, h.leaves⟩

theorem Written.parenIf {u : Term Slot} {t : Tree Head (Atom × Fragment Slot)} (h : Written sc u.fragment t)
    (wrap : Bool) : Written sc (parenIf wrap u).fragment (parenTree wrap t) := by
  cases wrap with
  | false => exact h
  | true => exact h.paren

theorem shapeOf_parenTree (wrap : Bool) (t : Tree Head (Atom × Fragment Slot)) :
    shapeOf (parenTree wrap t) = shapeOf t := by
  cases wrap <;> rfl

theorem shapeOf_group (head : Head) (parts : List (Tree Head (Atom × Fragment Slot))) :
    shapeOf (.group head parts) = .group head (parts.map shapeOf) := by
  rw [shapeOf, Sql.Tree.map, mapEach_eq_map, Tree.strip, stripEach_eq_map, List.map_map]
  rfl

theorem Written.nullTest {u : Term Slot} {t : Tree Head (Atom × Fragment Slot)} (h : Written sc u.fragment t)
    (hlevel : Operator.comparisonLevel < t.level) (negated : Bool) :
    Written sc (Term.nullTest u negated).fragment (.nullTest t negated) := by
  refine ⟨?_, .nullTest negated h.fits hlevel, .nullTest negated h.laid, h.leaves⟩
  rw [Term.fragment, h.fragment]
  rfl

theorem Written.operation {f g : Fragment Slot} {l r : Tree Head (Atom × Fragment Slot)} (op : Operator)
    (hl : Written sc f l) (hr : Written sc g r) (hfl : FitsLeft op l) (hfr : FitsRight op r) :
    Written sc (f ++ Token.text op.text :: g) (.operation op l r) := by
  refine ⟨?_, .operation hl.fits hr.fits hfl hfr, .operation _ hl.laid hr.laid, fun p hp => ?_⟩
  · rw [hl.fragment, hr.fragment]
    rfl
  · exact (List.mem_append.1 hp).elim (hl.leaves p) (hr.leaves p)

/-- Parts between their keywords. -/
theorem Written.group {closer : String} {first : List String} {rest : Head}
    {parts : List (Tree Head (Atom × Fragment Slot))} (hfirst : Opening closer first)
    (hrest : Keywords closer rest parts.length) (h : ∀ t ∈ parts, Written sc (t.fragment Prod.snd) t) :
    Written sc
      (first.map Token.text ++ weave (parts.map (Tree.fragment Prod.snd)) (rest.map fun run => run.map Token.text))
      (.group (first :: rest) parts) := by
  refine ⟨?_, .group _ fun t ht => (h t ht).fits, .group hfirst hrest fun t ht => (h t ht).laid, fun p hp => ?_⟩
  · rw [Tree.fragment, fragmentEach_eq_map]
    rfl
  · rw [Tree.leaves, leavesEach_eq_flatMap] at hp
    obtain ⟨t, ht, hp⟩ := List.mem_flatMap.1 hp
    exact (h t ht).leaves p hp

theorem accepted_parenIf {wrap : Bool} {u : Term Slot} : (parenIf wrap u).Accepted ↔ u.Accepted := by
  rw [Term.Accepted, slots_parenIf]
  rfl

theorem accepted_operation {l r : Term Slot} {i : Infix} :
    (Term.operation l i r).Accepted ↔ l.Accepted ∧ r.Accepted := List.forall_mem_append

/-- A comparison with null is a null test of the other side. -/
theorem Shaped.nullTest {operand : Expr} (h : Shaped sc operand) {op : BinaryOp} (hop : op.isEquality) {m : Mode}
    (hm : m.labelling = false) (hacc : (operand.emit sc m false).term.Accepted) :
    ∃ x, Written sc (Term.nullTest (parenIf (needsParens op false comparisonPrecedence false m operand)
        (operand.emit sc m false).term) (op == .notEqual)).fragment (.nullTest x (op == .notEqual)) ∧
      shapeOf (.nullTest x (op == .notEqual)) = .nullTest operand.tree (op == .notEqual) := by
  obtain ⟨t, hwritten, hshape, hbinds⟩ := h m false hm hacc
  refine ⟨parenTree _ t, (hwritten.parenIf _).nullTest (hbinds.level_nullTest hop) _, ?_⟩
  show Tree.nullTest (shapeOf _) _ = _
  rw [shapeOf_parenTree, hshape]

theorem binds_nullTest {α : Type} {op : BinaryOp} (hop : op.isEquality) (left right : Expr) (m : Mode)
    (x : Tree Head α) (negated : Bool) : Binds m (.binary op left right) (.nullTest x negated) where
  atom h := by cases h
  level p hp := by
    have hconcat : Expr.isConcatenation op left right = false := by
      cases op <;> first | rfl | cases hop
    simp only [Expr.precedence?, hconcat, Bool.false_eq_true, if_false, Option.some.injEq] at hp
    refine .inl (hp ▸ ?_)
    cases op <;> first | rfl | cases hop
  operation op' _ _ he hop' := by
    cases he
    rw [hop] at hop'
    cases hop'
  top i hi := by cases hi
  bare x hx := by cases hx

theorem binds_operation {α : Type} (op : BinaryOp) (left right : Expr) (m : Mode) (l r : Tree Head α) :
    Binds m (.binary op left right) (.operation (.binary (Expr.operatorOf op left right)) l r) where
  atom h := by cases h
  level p hp := .inl <| by
    rw [← Option.some.inj hp]
    exact level_operatorFor op (Expr.isConcatenation op left right)
  operation op' left' right' he _ := by
    cases he
    exact ⟨l, r, rfl⟩
  top i hi := by
    cases hi
    exact ⟨op, left, right, rfl, rfl⟩
  bare x hx := by cases hx

theorem Expr.tree_binary (op : BinaryOp) (left right : Expr) : (Expr.binary op left right).tree =
    if op.isEquality && right.isNull then .nullTest left.tree (op == .notEqual)
    else if op.isEquality && left.isNull then .nullTest right.tree (op == .notEqual)
    else .operation (.binary (Expr.operatorOf op left right)) left.tree right.tree := rfl

theorem Expr.term_binary (op : BinaryOp) (left right : Expr) (m : Mode) (beside : Bool) :
    let concat := Expr.isConcatenation op left right
    let nullTest := fun operand : Expr => Term.nullTest
      (parenIf (needsParens op false comparisonPrecedence false m.operand operand)
        (operand.emit sc m.operand false).term)
      (op == .notEqual)
    let operand := fun (e : Expr) (onRight beside : Bool) =>
      parenIf (needsParens op concat (operatorFor op concat).level onRight m.operand e)
        (e.emit sc m.operand beside).term
    ((Expr.binary op left right).emit sc m beside).term =
      if op.isEquality && right.isNull then nullTest left
      else if op.isEquality && left.isNull then nullTest right
      else .operation (operand left false false) (Expr.operatorOf op left right)
        (operand right true (left.emit sc m.operand false).jsonText) := by
  simp only [Expr.emit, level_operatorFor]
  split
  · rfl
  · split <;> rfl

theorem Shaped.binary {op : BinaryOp} {left right : Expr} (hl : Shaped sc left) (hr : Shaped sc right) :
    Shaped sc (.binary op left right) := by
  intro m beside hm hacc
  rw [Expr.term_binary] at hacc ⊢
  rw [Expr.tree_binary]
  by_cases hright : op.isEquality && right.isNull
  · have hop : op.isEquality := (Bool.and_eq_true _ _ ▸ hright).1
    rw [if_pos hright] at hacc ⊢
    rw [if_pos hright]
    obtain ⟨x, hwritten, hshape⟩ := hl.nullTest hop (m := m.operand) rfl (accepted_parenIf.1 hacc)
    exact ⟨_, hwritten, hshape, binds_nullTest hop left right m x _⟩
  · rw [if_neg hright] at hacc ⊢
    rw [if_neg hright]
    by_cases hleft : op.isEquality && left.isNull
    · have hop : op.isEquality := (Bool.and_eq_true _ _ ▸ hleft).1
      rw [if_pos hleft] at hacc ⊢
      rw [if_pos hleft]
      obtain ⟨x, hwritten, hshape⟩ := hr.nullTest hop (m := m.operand) rfl (accepted_parenIf.1 hacc)
      exact ⟨_, hwritten, hshape, binds_nullTest hop left right m x _⟩
    · rw [if_neg hleft] at hacc ⊢
      rw [if_neg hleft]
      obtain ⟨haccl, haccr⟩ := accepted_operation.1 hacc
      obtain ⟨l, hwl, hsl, hbl⟩ := hl m.operand false rfl (accepted_parenIf.1 haccl)
      obtain ⟨r, hwr, hsr, hbr⟩ := hr m.operand _ rfl (accepted_parenIf.1 haccr)
      have hconcat : Expr.isConcatenation op left right → op = .add := eq_add_of_isConcatenation
      refine ⟨_, (hwl.parenIf _).operation (.binary (Expr.operatorOf op left right)) (hwr.parenIf _)
        (hbl.fitsLeft hconcat) (hbr.fitsRight hconcat), ?_, ?_⟩
      · show Tree.operation _ (shapeOf _) (shapeOf _) = _
        rw [shapeOf_parenTree, shapeOf_parenTree, hsl, hsr]
      · exact binds_operation op left right m _ _

/-- A leaf or a group is not torn apart. -/
theorem binds_atom {α : Type} {m : Mode} {e : Expr} {t : Tree Head α} (hp : ∀ p, e.precedence? m = some p → p = 0)
    (hbinary : ∀ op left right, e ≠ .binary op left right)
    (ht : (∃ a, t = .leaf a) ∨ ∃ head parts, t = .group head parts) : Binds m e t := by
  have hlevel : t.level = Operator.atomLevel := by
    rcases ht with ⟨a, rfl⟩ | ⟨head, parts, rfl⟩ <;> rfl
  refine ⟨fun _ => hlevel, fun p h => .inr ⟨hp p h, hlevel⟩, fun op left right he => absurd he (hbinary op left right),
    fun i hi => ?_, fun x hx => ?_⟩
  · rcases ht with ⟨a, rfl⟩ | ⟨head, parts, rfl⟩ <;> cases hi
  · rcases ht with ⟨a, rfl⟩ | ⟨head, parts, rfl⟩ <;> cases hx

theorem written_leaf {f : Fragment Slot} (a : Atom) (h : a.Tokens sc f) : Written sc f (.leaf (a, f)) :=
  ⟨rfl, .leaf _, .leaf _, by simpa [Tree.leaves] using h⟩

theorem Shaped.constant (v : Literal) : Shaped sc (.constant v) := fun _ beside _ _ =>
  ⟨_, written_leaf (.expr (.constant v)) ⟨beside, rfl⟩, rfl, binds_atom nofun nofun (.inl ⟨_, rfl⟩)⟩

theorem Shaped.subquery (q : Query) : Shaped sc (.subquery q) := fun _ _ _ _ =>
  ⟨_, written_leaf (.expr (.subquery q)) rfl, rfl, binds_atom nofun nofun (.inl ⟨_, rfl⟩)⟩

theorem Shaped.not {operand : Expr} (h : Shaped sc operand) : Shaped sc (.unary .not operand) := by
  intro m beside hm hacc
  obtain ⟨t, hwritten, hshape, -⟩ := h m.operand beside rfl hacc
  refine ⟨.negation (.paren t), ⟨?_, .negation hwritten.fits, .negation hwritten.laid, hwritten.leaves⟩,
    congrArg Tree.negation hshape, nofun, fun p hp => .inl (Option.some.inj hp), nofun, nofun, nofun⟩
  show (Term.negation _).fragment = _
  rw [Term.fragment, hwritten.fragment]
  rfl

end Constructs

end ParamQuery
