/-
Trees whose parentheses fit, as phrases. The levels decide where parentheses
stand; a table that only refines them reads a tree whose parentheses fit as the
tree that its operators group to from left to right (`Tree.Fits.regrouped`).
The ranks refine the levels, so both tables read such a tree in the same way.
-/
import ParamQuery.Proofs.PhraseGrammar

namespace ParamQuery.Sql

/-! ## Tables that refine the levels -/

/-- A table in which what is on a higher level binds more strongly, and operators
of one level bind alike and are chained, comparisons and patterns apart. -/
structure Precedence.Refines (T : Precedence) : Prop where
  operator_lt : ∀ {op op' : Operator}, op.level < op'.level → T.operator op < T.operator op'
  lt_negation : ∀ {op : Operator}, op.level < Operator.negationLevel → T.operator op < T.negation
  lt_nullTest : ∀ {op : Operator}, op.level < Operator.comparisonLevel → T.operator op < T.nullTest
  nullTest_le : T.nullTest ≤ T.operator .like
  operator_congr : ∀ {op op' : Operator}, op.level = op'.level → op.level ≠ Operator.comparisonLevel →
    T.operator op = T.operator op'
  comparison : ∀ {op : Operator}, T.chains (T.operator op) = false → op.level = Operator.comparisonLevel

theorem refines_levels : Precedence.levels.Refines where
  operator_lt h := h
  lt_negation h := h
  lt_nullTest h := h
  nullTest_le := le_rfl
  operator_congr h _ := h
  comparison h := by simpa [Precedence.levels] using h

/-- The ranks on the levels below comparisons, of comparisons and patterns, and
on the levels above. -/
theorem Operator.rank_of_level (op : Operator) :
    (op.level < comparisonLevel → op.rank = op.level) ∧
      (op.level = comparisonLevel → op.rank = 5 ∨ op.rank = 6) ∧
      (comparisonLevel < op.level → op.rank = op.level + 2) := by
  rcases op with ⟨⟨op⟩ | _⟩ | ⟨⟨⟩⟩ | _
  · cases op <;> decide
  · decide
  · decide
  · decide
  · decide

theorem refines_ranks : Precedence.ranks.Refines where
  operator_lt {op op'} h := by
    have hop := op.rank_of_level
    have hop' := op'.rank_of_level
    show op.rank < op'.rank
    simp only [Operator.comparisonLevel] at hop hop'
    omega
  lt_negation {op} h := by
    have hop := op.rank_of_level
    show op.rank < 3
    simp only [Operator.comparisonLevel, Operator.negationLevel] at h hop
    omega
  lt_nullTest {op} h := by
    have hop := op.rank_of_level
    show op.rank < 4
    simp only [Operator.comparisonLevel] at h hop
    omega
  nullTest_le := by decide
  operator_congr {op op'} h hcomparison := by
    have hop := op.rank_of_level
    have hop' := op'.rank_of_level
    show op.rank = op'.rank
    omega
  comparison {op} h := by
    have hop := op.rank_of_level
    have hrank : op.rank = 5 ∨ op.rank = 6 := by
      simpa only [Precedence.ranks, Bool.and_eq_false_iff, bne_eq_false_iff_eq] using h
    simp only [Operator.comparisonLevel] at hop ⊢
    omega

/-! ## How strongly trees bind -/

section Strengths

variable {κ α : Type} {T : Precedence}

/-- How strongly a tree binds to what stands in front of it: a negation cannot be
torn apart there. -/
def Tree.leftStrength (T : Precedence) : Tree κ α → Nat
  | .negation _ => T.atom
  | t => t.strength T

/-- How strongly a tree binds to what stands behind it: a null test cannot be torn
apart there. -/
def Tree.rightStrength (T : Precedence) : Tree κ α → Nat
  | .nullTest _ _ => T.atom
  | t => t.strength T

theorem Tree.strength_le_leftStrength (t : Tree κ α) : t.strength T ≤ t.leftStrength T := by
  cases t with
  | negation t => exact T.negation_lt_atom.le
  | leaf | operation | nullTest | paren | group => exact le_rfl

theorem Tree.strength_le_rightStrength (t : Tree κ α) : t.strength T ≤ t.rightStrength T := by
  cases t with
  | nullTest t negated => exact T.nullTest_lt_atom.le
  | leaf | operation | negation | paren | group => exact le_rfl

/-- What is on a higher level binds more strongly. -/
theorem Precedence.Refines.strength_lt (hT : T.Refines) {op : Operator} {t : Tree κ α} (h : op.level < t.level) :
    T.operator op < t.strength T := by
  cases t with
  | operation op' a b => exact hT.operator_lt h
  | negation t => exact hT.lt_negation h
  | nullTest t negated => exact hT.lt_nullTest h
  | leaf | paren | group => exact T.operator_lt_atom op

theorem Precedence.Refines.nullTest_lt (hT : T.Refines) {t : Tree κ α} (h : Operator.comparisonLevel < t.level) :
    T.nullTest < t.strength T := by
  have hlike : Operator.like.level < t.level := h
  exact hT.nullTest_le.trans_lt (hT.strength_lt hlike)

theorem Tree.eq_operation_of_level {t : Tree κ α} {op : Operator} (h : t.level = op.level)
    (hcomparison : op.level ≠ Operator.comparisonLevel) : ∃ op' a b, t = .operation op' a b := by
  have hneg : op.level ≠ Operator.negationLevel := by
    rcases op with ⟨⟨op⟩ | _⟩ | _ | _
    · cases op <;> decide
    · decide
    · exact fun h => by cases h
    · decide
  have hatom := op.level_lt_atomLevel
  cases t with
  | operation op' a b => exact ⟨op', a, b, rfl⟩
  | leaf a | paren t | group head parts =>
    have : op.level = Operator.atomLevel := h.symm
    omega
  | negation t => exact absurd h.symm hneg
  | nullTest t negated => exact absurd h.symm hcomparison

theorem FitsLeft.operator_le (hT : T.Refines) {op : Operator} {t : Tree κ α} (h : FitsLeft op t) :
    T.operator op ≤ t.strength T := by
  rcases h.level.lt_or_eq with hlt | heq
  · exact (hT.strength_lt hlt).le
  · have hcomparison : op.level ≠ Operator.comparisonLevel := fun hc => absurd heq (h.comparison hc).ne
    obtain ⟨op', a, b, rfl⟩ := Tree.eq_operation_of_level heq.symm hcomparison
    exact (hT.operator_congr heq hcomparison).le

/-- A left operand that fits is complete in front of its operator. -/
theorem FitsLeft.stopsAt (hT : T.Refines) {op : Operator} {t : Tree κ α} (h : FitsLeft op t) {edge : Nat}
    (hedge : t.strength T ≤ edge) : T.StopsAt (T.operator op) edge :=
  ⟨(h.operator_le hT).trans hedge, fun hchains =>
    (hT.strength_lt (h.comparison (hT.comparison hchains))).trans_le hedge⟩

end Strengths

/-! ## What waits for a tree -/

namespace Waiting

variable (T : Precedence)

/-- The words of what waits. -/
def words : Waiting (List (List Word)) (List Word) → List Word
  | none => []
  | some (left, op) => left.words ++ [.plain op.symbol]

/-- The weakest operator on the left edge of what waits, with something of the
given strength behind it. -/
def leftEdge (strength : Nat) : Waiting (List (List Word)) (List Word) → Nat
  | none => strength
  | some (left, op) => min (T.operator op) (left.leftEdge T)

/-- The weakest operator on the right edge of what waits, with something of the
given strength behind it that its operator leaves whole. -/
def rightEdge (strength : Nat) : Waiting (List (List Word)) (List Word) → Nat
  | none => strength
  | some (_, op) => T.operator op

/-- What waits is an operator behind a phrase that is complete in front of it. -/
def IsPhrase (waiting : Waiting (List (List Word)) (List Word)) : Prop :=
  ∀ p ∈ waiting, p.1.IsPhrase T ∧ T.StopsAt (T.operator p.2) (p.1.rightEdge T)

end Waiting

/-- An operand behind what waits for it: it binds more strongly, or is an
operation that is taken apart. -/
def Admits (waiting : Waiting (List (List Word)) (List Word)) (t : ReadTree) : Prop :=
  ∀ p ∈ waiting, p.2.level < t.level ∨
    p.2.level = t.level ∧ p.2.level ≠ Operator.comparisonLevel ∧ ∃ op a b, t = .operation op a b

theorem FitsRight.admits {op : Operator} {t : ReadTree} (h : FitsRight op t) (left : ReadTree) :
    Admits (some (left, op)) t := by
  rintro p ⟨⟩
  rcases h.level with hlt | ⟨hassoc, a, b, rfl⟩
  · exact .inl hlt
  · refine .inr ⟨rfl, fun hc => ?_, op, a, b, rfl⟩
    rw [Operator.not_isAssociative_of_comparison hc] at hassoc
    cases hassoc

theorem Admits.level_lt {waiting : Waiting (List (List Word)) (List Word)} {t : ReadTree} (h : Admits waiting t)
    (ht : ∀ op a b, t ≠ .operation op a b) : ∀ p ∈ waiting, p.2.level < t.level := by
  intro p hp
  rcases h p hp with hlt | ⟨-, -, op, a, b, heq⟩
  · exact hlt
  · exact absurd heq (ht op a b)

/-! ## Regrouped trees are phrases -/

/-- A tree behind what waits for it, grouped from left to right, is a phrase with
their words. -/
structure Regrouped (T : Precedence) (waiting : Waiting (List (List Word)) (List Word)) (t : ReadTree) : Prop where
  phrase : (Tree.regroup waiting t).IsPhrase T
  words : (Tree.regroup waiting t).words = waiting.words ++ t.words
  left : (Tree.regroup waiting t).leftEdge T = waiting.leftEdge T (t.leftStrength T)
  right : (Tree.regroup waiting t).rightEdge T = waiting.rightEdge T (t.rightStrength T)

section Regroup

variable {T : Precedence} {t : ReadTree}

theorem Regrouped.strength_le (h : Regrouped T none t) :
    t.strength T ≤ (Tree.regroup none t).leftEdge T ∧ t.strength T ≤ (Tree.regroup none t).rightEdge T :=
  ⟨t.strength_le_leftStrength.trans h.left.ge, t.strength_le_rightStrength.trans h.right.ge⟩

/-- What binds more strongly than the operator in front of it is its operand. -/
theorem Regrouped.attach (hT : T.Refines) {waiting : Waiting (List (List Word)) (List Word)}
    (h : Regrouped T none t) (hwaiting : waiting.IsPhrase T) (hlevel : ∀ p ∈ waiting, p.2.level < t.level)
    (hregroup : Tree.regroup waiting t = Sql.attach waiting (Tree.regroup none t)) : Regrouped T waiting t := by
  cases waiting with
  | none => exact h
  | some p =>
    obtain ⟨left, op⟩ := p
    obtain ⟨hphrase, hstops⟩ := hwaiting (left, op) rfl
    have hstrength : T.operator op < t.strength T := hT.strength_lt (hlevel (left, op) rfl)
    constructor <;> rw [hregroup]
    · exact .operation hphrase h.phrase hstops (hstrength.trans_le h.strength_le.1)
    · simp [Sql.attach, Tree.words, Waiting.words, h.words]
    · rfl
    · exact min_eq_left (hstrength.le.trans h.strength_le.2)

theorem Regrouped.leaf {ws : List Word} (h : IsOperand ws) : Regrouped T none (.leaf ws) :=
  ⟨.leaf h, rfl, rfl, rfl⟩

theorem Regrouped.paren (h : Regrouped T none t) : Regrouped T none (.paren t) := by
  refine ⟨.paren h.phrase, ?_, rfl, rfl⟩
  simp [Tree.regroup, Sql.attach, Tree.words, Waiting.words, h.words]

theorem Regrouped.negation (h : Regrouped T none t) : Regrouped T none (.negation (.paren t)) := by
  refine ⟨.negation (.paren h.phrase) T.negation_lt_atom, ?_, rfl, ?_⟩
  · simp [Tree.regroup, Sql.attach, Tree.words, Waiting.words, h.words]
  · exact min_eq_left T.negation_lt_atom.le

theorem Regrouped.nullTest (hT : T.Refines) (h : Regrouped T none t) (hlevel : Operator.comparisonLevel < t.level)
    (negated : Bool) : Regrouped T none (.nullTest t negated) := by
  have hstrength := hT.nullTest_lt hlevel
  refine ⟨.nullTest negated h.phrase (stopsAt_of_lt (hstrength.trans_le h.strength_le.2)), ?_,
    min_eq_left (hstrength.le.trans h.strength_le.1), rfl⟩
  simp [Tree.regroup, Sql.attach, Tree.words, Waiting.words, h.words]

theorem Regrouped.group {closer : String} {front : List (List Word)} {parts : List ReadTree}
    (hhead : IsHead closer front) (hlength : front.length = parts.length)
    (h : ∀ t ∈ parts, Regrouped T none t) : Regrouped T none (.group (front ++ [[Word.plain closer]]) parts) := by
  have hregroup : Tree.regroup none (.group (front ++ [[Word.plain closer]]) parts) =
      .group (front ++ [[Word.plain closer]]) (parts.map (Tree.regroup none)) := by
    rw [Tree.regroup, regroupEach_eq_map]
    rfl
  constructor <;> rw [hregroup]
  · refine .group hhead (by simpa using hlength) ?_
    simpa using fun t ht => (h t ht).phrase
  · rw [words_group, words_group, groupWords, groupWords, List.map_map]
    refine congrArg (_ ++ ·) (congrArg (weave · _) (List.map_congr_left fun t ht => ?_))
    exact (h t ht).words
  · rfl
  · rfl

/-- An operation is its right operand behind the left one and the operator. -/
theorem Regrouped.operation (hT : T.Refines) {op : Operator} {l r : ReadTree} (hfits : FitsLeft op l)
    (hl : Regrouped T none l) (hr : Regrouped T (some (Tree.regroup none l, op)) r) :
    Regrouped T none (.operation op l r) := by
  have hregroup : Tree.regroup none (.operation op l r) = Tree.regroup (some (Tree.regroup none l, op)) r := rfl
  constructor <;> rw [hregroup]
  · exact hr.phrase
  · rw [hr.words]
    simp [Tree.words, Waiting.words, hl.words]
  · exact hr.left.trans (min_eq_left ((hfits.operator_le hT).trans hl.strength_le.1))
  · exact hr.right

/-- The operator in front takes the left operand of one that binds alike. -/
theorem Regrouped.takeOver {left l r : ReadTree} {front op : Operator} (htake : takesOver (some (left, front)) op)
    (hoperator : T.operator front = T.operator op) (hl : Regrouped T (some (left, front)) l)
    (hr : Regrouped T (some (Tree.regroup (some (left, front)) l, op)) r) :
    Regrouped T (some (left, front)) (.operation op l r) := by
  have hregroup : Tree.regroup (some (left, front)) (.operation op l r) =
      Tree.regroup (some (Tree.regroup (some (left, front)) l, op)) r := by rw [Tree.regroup, if_pos htake]
  constructor <;> rw [hregroup]
  · exact hr.phrase
  · rw [hr.words, Waiting.words, hl.words]
    simp [Tree.words]
  · rw [hr.left, Waiting.leftEdge, Waiting.leftEdge, hl.left, Waiting.leftEdge, ← hoperator, ← min_assoc, min_self]
  · exact hr.right.trans hoperator.symm

/-- **A tree whose parentheses fit has the words of a phrase**, in which its
operators are grouped from left to right. -/
theorem Tree.Fits.regrouped (hT : T.Refines) (hfits : t.Fits) (hformed : t.Formed)
    (waiting : Waiting (List (List Word)) (List Word)) (hwaiting : waiting.IsPhrase T) (hadmits : Admits waiting t) :
    Regrouped T waiting t := by
  have hnone : ∀ t, Admits none t := fun t p hp => by cases hp
  have hnothing : Waiting.IsPhrase T none := fun p hp => by cases hp
  induction hfits generalizing waiting with
  | leaf ws =>
    cases hformed with
    | leaf h => exact (Regrouped.leaf h).attach hT hwaiting (hadmits.level_lt (by simp)) rfl
  | @operation op l r hl hr hfl hfr ihl ihr =>
    cases hformed with
    | operation op hformedl hformedr =>
    -- the right operand behind its operator, whatever the left one has become
    have hright : ∀ left : ReadTree, left.IsPhrase T → T.StopsAt (T.operator op) (left.rightEdge T) →
        Regrouped T (some (left, op)) r := by
      intro left hleft hstops
      refine ihr hformedr _ ?_ (hfr.admits left)
      rintro p ⟨⟩
      exact ⟨hleft, hstops⟩
    by_cases htake : takesOver waiting op
    · -- the operator in front is completed with the left operand
      cases waiting with
      | none => cases htake
      | some p =>
      obtain ⟨left, front⟩ := p
      have hlevel : front.level = op.level := by simpa [takesOver] using htake
      have hcomparison : front.level ≠ Operator.comparisonLevel := by
        rcases hadmits (left, front) rfl with hlt | ⟨-, hne, -⟩
        · exact absurd hlevel (ne_of_lt hlt)
        · exact hne
      have hoperator : T.operator front = T.operator op := hT.operator_congr hlevel hcomparison
      have hadmitsl : Admits (some (left, front)) l := by
        rintro p ⟨⟩
        rcases Nat.lt_or_eq_of_le hfl.level with hlt | heq
        · exact .inl (hlevel ▸ hlt)
        · exact .inr ⟨hlevel.trans heq, hcomparison, Tree.eq_operation_of_level heq.symm (hlevel ▸ hcomparison)⟩
      have hx : Regrouped T (some (left, front)) l := ihl hformedl _ hwaiting hadmitsl
      have hstops : T.StopsAt (T.operator op) ((Tree.regroup (some (left, front)) l).rightEdge T) :=
        ⟨hoperator.ge.trans hx.right.ge, fun hchains => absurd (hT.comparison hchains) (hlevel ▸ hcomparison)⟩
      exact hx.takeOver htake hoperator (hright _ hx.phrase hstops)
    · -- the operator binds more strongly than the one in front
      have hx : Regrouped T none l := ihl hformedl none hnothing (hnone l)
      have hy := hright _ hx.phrase (hfl.stopsAt hT hx.strength_le.2)
      refine (Regrouped.operation hT hfl hx hy).attach hT hwaiting (fun p hp => ?_) ?_
      · rcases hadmits p hp with hlt | ⟨heq, -⟩
        · exact hlt
        · cases hp
          exact absurd (beq_iff_eq.2 heq) htake
      · rw [Tree.regroup, if_neg htake]
        rfl
  | @negation t h ih =>
    cases hformed with
    | negation hp =>
    cases hp with
    | paren ht =>
    have hx : Regrouped T none t := ih ht none hnothing (hnone t)
    exact hx.negation.attach hT hwaiting (hadmits.level_lt (by simp)) rfl
  | @nullTest t negated h hlevel ih =>
    cases hformed with
    | nullTest negated ht =>
    have hx : Regrouped T none t := ih ht none hnothing (hnone t)
    exact (hx.nullTest hT hlevel negated).attach hT hwaiting (hadmits.level_lt (by simp)) rfl
  | @paren t h ih =>
    cases hformed with
    | paren ht =>
    have hx : Regrouped T none t := ih ht none hnothing (hnone t)
    exact hx.paren.attach hT hwaiting (hadmits.level_lt (by simp)) rfl
  | @group head parts h ih =>
    generalize hg : Tree.group head parts = g at hformed
    cases hformed with
    | leaf | operation | negation | nullTest | paren => cases hg
    | @group closer front parts hhead hlength hparts =>
    cases hg
    have hpart := fun t ht => ih t ht (hparts t ht) none hnothing (hnone t)
    exact (Regrouped.group hhead hlength hpart).attach hT hwaiting (hadmits.level_lt (by simp)) rfl

end Regroup

end ParamQuery.Sql
