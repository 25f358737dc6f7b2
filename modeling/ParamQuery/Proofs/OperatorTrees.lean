/-
Operator trees, and how their text groups them. A table says how strongly the
operators bind (`Precedence`); the levels of `Precedence.levels` are those that
decide where parentheses stand. Reading a text from left to right gives the tree
`Tree.regroup`, in which operators of one level group to the left.

`Tree.normal` groups every chain of one associative operator to the left, so two
trees with the same normal form differ by regrouping such chains only. A tree
whose parentheses fit (`Tree.Fits`) is read back up to such regrouping exactly
when it is `unbroken` (`Tree.normal_regroup`): no right operand that goes on
with the same associative operator begins with another one of its level.
-/
import ParamQuery.Sql.Term
import Mathlib

namespace ParamQuery.Sql

/-! ## Operators -/

/-- The operators between two operands. -/
inductive Operator where
  | binary (op : Infix)
  /-- Access to a value inside a document, as text or as a document. -/
  | arrow (asText : Bool)
  /-- The comparison with a pattern. -/
  | like
deriving DecidableEq

namespace Operator

/-- How strongly an operator binds; negation is on level 3. -/
def level : Operator → Nat
  | .binary (.operator .orElse) => 1
  | .binary (.operator .andAlso) => 2
  | .binary (.operator .equal) | .binary (.operator .notEqual) | .binary (.operator .greaterThan)
  | .binary (.operator .greaterThanOrEqual) | .binary (.operator .lessThan)
  | .binary (.operator .lessThanOrEqual) | .like => 4
  | .binary (.operator .and) | .binary (.operator .or) | .binary (.operator .exclusiveOr)
  | .binary (.operator .leftShift) | .binary (.operator .rightShift) | .binary .concat | .arrow _ => 5
  | .binary (.operator .add) | .binary (.operator .subtract) => 6
  | .binary (.operator .multiply) | .binary (.operator .divide) | .binary (.operator .modulo) => 7

/-- The level of negation. -/
def negationLevel : Nat := 3

/-- The level of comparisons, which do not associate. -/
def comparisonLevel : Nat := 4

/-- The level of what nothing can tear apart. -/
def atomLevel : Nat := 8

/-- The operators whose chains mean the same however they are grouped. -/
def isAssociative : Operator → Bool
  | .binary (.operator .andAlso) | .binary (.operator .orElse) | .binary (.operator .add)
  | .binary (.operator .multiply) | .binary (.operator .and) | .binary (.operator .or)
  | .binary (.operator .exclusiveOr) | .binary .concat => true
  | _ => false

/-- The operators that are alone on their levels. -/
def isConnective : Operator → Bool
  | .binary (.operator .andAlso) | .binary (.operator .orElse) => true
  | _ => false

theorem level_lt_atomLevel (o : Operator) : o.level < atomLevel := by
  rcases o with ⟨⟨op⟩ | _⟩ | _ | _
  · cases op <;> decide
  · decide
  · exact Nat.lt_add_left 2 (Nat.lt_add_one 5)
  · decide

theorem eq_of_isConnective {o : Operator} (h : o.isConnective) :
    o = .binary (.operator .andAlso) ∨ o = .binary (.operator .orElse) := by
  rcases o with ⟨⟨op⟩ | _⟩ | _ | _
  · cases op <;> simp_all [isConnective]
  · cases h
  · cases h
  · cases h

theorem eq_of_level_eq {o o' : Operator} (h : o.isConnective) (hlevel : o'.level = o.level) : o' = o := by
  rcases eq_of_isConnective h with rfl | rfl <;> rcases o' with ⟨⟨op⟩ | _⟩ | _ | _ <;>
    first | cases hlevel | (cases op <;> first | rfl | cases hlevel)

theorem not_isAssociative_of_comparison {o : Operator} (h : o.level = comparisonLevel) : o.isAssociative = false := by
  rcases o with ⟨⟨op⟩ | _⟩ | _ | _
  · cases op <;> first | rfl | cases h
  · cases h
  · rfl
  · rfl

end Operator

/-- A table of operators: how strongly they bind, and so negations and null
tests. -/
structure Precedence where
  operator : Operator → Nat
  negation : Nat
  nullTest : Nat
  /-- The strength of what nothing can tear apart. -/
  atom : Nat
  /-- Whether operators of a strength can follow one another. -/
  chains : Nat → Bool
  operator_lt_atom : ∀ op, operator op < atom
  negation_lt_atom : negation < atom
  nullTest_lt_atom : nullTest < atom
  chains_zero : chains 0 = true

/-- The table of levels: comparisons, patterns and null tests bind alike, and are
not chained. -/
def Precedence.levels : Precedence where
  operator := Operator.level
  negation := Operator.negationLevel
  nullTest := Operator.comparisonLevel
  atom := Operator.atomLevel
  chains level := level != Operator.comparisonLevel
  operator_lt_atom := Operator.level_lt_atomLevel
  negation_lt_atom := by decide
  nullTest_lt_atom := by decide
  chains_zero := rfl

/-! ## Trees -/

/-- Expressions as the grammar sees them. `κ` is what is known of the keywords
around the parts of a call. -/
inductive Tree (κ α : Type) where
  | leaf (a : α)
  | operation (op : Operator) (left right : Tree κ α)
  | negation (t : Tree κ α)
  | nullTest (t : Tree κ α) (negated : Bool)
  /-- A tree in parentheses. -/
  | paren (t : Tree κ α)
  /-- Parts that stand between keywords: a call or a `CASE`. -/
  | group (head : κ) (parts : List (Tree κ α))

variable {κ α : Type}

section Induction

set_option linter.unusedSectionVars false

variable {P : Tree κ α → Prop}
  (leaf : ∀ a, P (.leaf a))
  (operation : ∀ op left right, P left → P right → P (.operation op left right))
  (negation : ∀ t, P t → P (.negation t))
  (nullTest : ∀ t negated, P t → P (.nullTest t negated))
  (paren : ∀ t, P t → P (.paren t))
  (group : ∀ head parts, (∀ t ∈ parts, P t) → P (.group head parts))

include leaf operation negation nullTest paren group

mutual
theorem Tree.induction : ∀ t, P t
  | .leaf a => leaf a
  | .operation _ left right => operation _ _ _ (Tree.induction left) (Tree.induction right)
  | .negation t => negation _ (Tree.induction t)
  | .nullTest t _ => nullTest _ _ (Tree.induction t)
  | .paren t => paren _ (Tree.induction t)
  | .group _ parts => group _ _ (partsInduction parts)
theorem partsInduction : ∀ ts : List (Tree κ α), ∀ t ∈ ts, P t
  | [] => by simp
  | t :: ts => by
    have ht := Tree.induction t
    have hts := partsInduction ts
    simpa using ⟨ht, hts⟩
end

end Induction

mutual
/-- The tree without its parentheses. -/
def Tree.strip : Tree κ α → Tree κ α
  | .leaf a => .leaf a
  | .operation op left right => .operation op left.strip right.strip
  | .negation t => .negation t.strip
  | .nullTest t negated => .nullTest t.strip negated
  | .paren t => t.strip
  | .group head parts => .group head (stripEach parts)
/-- Some trees, each without its parentheses. -/
def stripEach : List (Tree κ α) → List (Tree κ α)
  | [] => []
  | t :: ts => t.strip :: stripEach ts
end

theorem stripEach_eq_map (ts : List (Tree κ α)) : stripEach ts = ts.map Tree.strip := by
  induction ts with
  | nil => rfl
  | cons t ts ih => rw [stripEach, ih, List.map_cons]

/-- The operator that a tree applies last. -/
def Tree.top : Tree κ α → Option Operator
  | .operation op _ _ => some op
  | .paren t => t.top
  | _ => none

/-- How strongly a tree binds as it stands. -/
def Tree.strength (T : Precedence) : Tree κ α → Nat
  | .operation op _ _ => T.operator op
  | .negation _ => T.negation
  | .nullTest _ _ => T.nullTest
  | _ => T.atom

/-- The level of a tree as it stands. -/
def Tree.level (t : Tree κ α) : Nat := t.strength .levels

theorem top_strip (t : Tree κ α) : t.strip.top = t.top := by
  induction t using Tree.induction with
  | leaf a => rfl
  | operation op left right _ _ => rfl
  | negation t _ => rfl
  | nullTest t negated _ => rfl
  | paren t ih => exact ih
  | group head parts _ => rfl

/-! ## Chains of one operator -/

/-- An operation whose right operand is grouped to the left as far as it goes on
with the same associative operator. -/
def Tree.nestLeft (op : Operator) (left : Tree κ α) : Tree κ α → Tree κ α
  | .operation op' a b =>
    if op' = op ∧ op.isAssociative then .operation op (Tree.nestLeft op left a) b
    else .operation op left (.operation op' a b)
  | t => .operation op left t

mutual
/-- The tree without parentheses, with every chain of one associative operator
grouped to the left. -/
def Tree.normal : Tree κ α → Tree κ α
  | .leaf a => .leaf a
  | .operation op left right => Tree.nestLeft op left.normal right.normal
  | .negation t => .negation t.normal
  | .nullTest t negated => .nullTest t.normal negated
  | .paren t => t.normal
  | .group head parts => .group head (normalEach parts)
/-- Some trees, each in its normal form. -/
def normalEach : List (Tree κ α) → List (Tree κ α)
  | [] => []
  | t :: ts => t.normal :: normalEach ts
end

theorem normalEach_eq_map (ts : List (Tree κ α)) : normalEach ts = ts.map Tree.normal := by
  induction ts with
  | nil => rfl
  | cons t ts ih => rw [normalEach, ih, List.map_cons]

/-- The normal form does not depend on parentheses. -/
theorem Tree.normal_strip (t : Tree κ α) : t.strip.normal = t.normal := by
  induction t using Tree.induction with
  | leaf a => rfl
  | operation op left right ihl ihr => rw [Tree.strip, Tree.normal, Tree.normal, ihl, ihr]
  | negation t ih => rw [Tree.strip, Tree.normal, Tree.normal, ih]
  | nullTest t negated ih => rw [Tree.strip, Tree.normal, Tree.normal, ih]
  | paren t ih => exact ih
  | group head parts ih =>
    rw [Tree.strip, Tree.normal, Tree.normal, normalEach_eq_map, normalEach_eq_map, stripEach_eq_map, List.map_map]
    exact congrArg (Tree.group head) (List.map_congr_left ih)

theorem Tree.top_nestLeft (op : Operator) (a b : Tree κ α) : (Tree.nestLeft op a b).top = some op := by
  cases b with
  | operation op' c d =>
    rw [Tree.nestLeft]
    split <;> rfl
  | leaf | negation | nullTest | paren | group => rfl

theorem Tree.top_normal (t : Tree κ α) : t.normal.top = t.top := by
  induction t using Tree.induction with
  | leaf a => rfl
  | operation op left right _ _ => exact Tree.top_nestLeft op _ _
  | negation t _ => rfl
  | nullTest t negated _ => rfl
  | paren t ih => exact ih
  | group head parts _ => rfl

theorem Tree.nestLeft_assoc {op : Operator} (h : op.isAssociative) (a b c : Tree κ α) :
    Tree.nestLeft op (Tree.nestLeft op a b) c = Tree.nestLeft op a (Tree.nestLeft op b c) := by
  induction c using Tree.induction with
  | operation op' c d ih _ =>
    by_cases heq : op' = op
    · subst heq
      simp only [Tree.nestLeft, h, and_self, if_true, ih]
    · simp [Tree.nestLeft, h, heq]
  | leaf a | negation t _ | nullTest t negated _ | paren t _ | group head parts _ => simp [Tree.nestLeft, h]

/-! ## Reading from left to right -/

/-- What waits for its right operand. -/
abbrev Waiting (κ α : Type) := Option (Tree κ α × Operator)

/-- A tree that is read as a whole, behind what waits for it. -/
def attach : Waiting κ α → Tree κ α → Tree κ α
  | none, t => t
  | some (left, op), t => .operation op left t

/-- Whether an operator takes what was read before it as its left operand. -/
def takesOver (waiting : Waiting κ α) (op : Operator) : Bool :=
  match waiting with
  | none => false
  | some (_, op') => op'.level == op.level

mutual
/-- What the text of a tree is read as, behind what waits for it: an operation
on the level of the waiting operator is taken apart, and its operators follow
one another. Parentheses are kept. -/
def Tree.regroup : Waiting κ α → Tree κ α → Tree κ α
  | waiting, .leaf a => attach waiting (.leaf a)
  | waiting, .operation op left right =>
    if takesOver waiting op then Tree.regroup (some (Tree.regroup waiting left, op)) right
    else attach waiting (Tree.regroup (some (Tree.regroup none left, op)) right)
  | waiting, .negation t => attach waiting (.negation (Tree.regroup none t))
  | waiting, .nullTest t negated => attach waiting (.nullTest (Tree.regroup none t) negated)
  | waiting, .paren t => attach waiting (.paren (Tree.regroup none t))
  | waiting, .group head parts => attach waiting (.group head (regroupEach parts))
/-- Some trees, each regrouped on its own. -/
def regroupEach : List (Tree κ α) → List (Tree κ α)
  | [] => []
  | t :: ts => Tree.regroup none t :: regroupEach ts
end

theorem regroupEach_eq_map (ts : List (Tree κ α)) : regroupEach ts = ts.map (Tree.regroup none) := by
  induction ts with
  | nil => rfl
  | cons t ts ih => rw [regroupEach, ih, List.map_cons]

/-! ## Parentheses that fit -/

/-- A left operand as it stands: it binds at least as strongly, and what is in
parentheses binds less. -/
structure FitsLeft (op : Operator) (t : Tree κ α) : Prop where
  level : op.level ≤ t.level
  comparison : op.level = Operator.comparisonLevel → op.level < t.level
  paren : ∀ x, t = .paren x → ¬op.isConnective → op.level ≠ Operator.comparisonLevel →
    ∀ op' ∈ x.top, op'.level < op.level

/-- A right operand as it stands: it binds more strongly, or goes on with the
same associative operator; in parentheses there is another operator. -/
structure FitsRight (op : Operator) (t : Tree κ α) : Prop where
  level : op.level < t.level ∨ op.isAssociative ∧ ∃ a b, t = .operation op a b
  paren : ∀ x, t = .paren x → op.isAssociative → ¬op.isConnective → x.top ≠ some op

/-- The trees that are written with the parentheses that they need. -/
inductive Tree.Fits : Tree κ α → Prop
  | leaf (a : α) : Tree.Fits (.leaf a)
  | operation {op : Operator} {left right : Tree κ α} (hl : left.Fits) (hr : right.Fits) (hfl : FitsLeft op left)
      (hfr : FitsRight op right) : Tree.Fits (.operation op left right)
  | negation {t : Tree κ α} (h : t.Fits) : Tree.Fits (.negation (.paren t))
  | nullTest {t : Tree κ α} (negated : Bool) (h : t.Fits) (hlevel : Operator.comparisonLevel < t.level) :
      Tree.Fits (.nullTest t negated)
  | paren {t : Tree κ α} (h : t.Fits) : Tree.Fits (.paren t)
  | group (head : κ) {parts : List (Tree κ α)} (h : ∀ t ∈ parts, t.Fits) : Tree.Fits (.group head parts)

/-- Whether a tree, read behind an operator, stays one operand of it or goes on
with the operator alone. -/
def Tree.follows (op : Operator) : Tree κ α → Bool
  | .operation op' left _ => if op' = op then left.follows op else op'.level != op.level
  | _ => true

/-- Whether a right operand may go on with the operator. -/
def Tree.continues (op : Operator) : Tree κ α → Bool
  | .operation op' left _ => !op.isAssociative || op' != op || left.follows op
  | _ => true

mutual
/-- No right operand that goes on with the same associative operator begins with
another operator of its level. -/
def Tree.unbroken : Tree κ α → Bool
  | .leaf _ => true
  | .operation op left right => left.unbroken && right.unbroken && right.continues op
  | .negation t => t.unbroken
  | .nullTest t _ => t.unbroken
  | .paren t => t.unbroken
  | .group _ parts => unbrokenEach parts
/-- Whether all of some trees are unbroken. -/
def unbrokenEach : List (Tree κ α) → Bool
  | [] => true
  | t :: ts => t.unbroken && unbrokenEach ts
end

theorem unbrokenEach_eq_all (ts : List (Tree κ α)) : unbrokenEach ts = ts.all Tree.unbroken := by
  induction ts with
  | nil => rfl
  | cons t ts ih => rw [unbrokenEach, ih, List.all_cons]

theorem FitsRight.level_le {op : Operator} {t : Tree κ α} (h : FitsRight op t) : op.level ≤ t.level := by
  rcases h.level with h | ⟨-, a, b, rfl⟩
  · exact h.le
  · exact le_rfl

/-- Behind a connective nothing breaks. -/
theorem follows_of_isConnective {op : Operator} (h : op.isConnective) (t : Tree κ α) : t.follows op := by
  induction t using Tree.induction with
  | operation op' left right ihl _ =>
    rw [Tree.follows]
    split
    · exact ihl
    · rename_i hne
      simpa using fun hlevel => hne (Operator.eq_of_level_eq h hlevel)
  | leaf a | negation t _ | nullTest t negated _ | paren t _ | group head parts _ => rfl

theorem continues_of_follows {op : Operator} {t : Tree κ α} (h : t.follows op) : t.continues op := by
  cases t with
  | operation op' left right =>
    rw [Tree.follows] at h
    split at h
    · rw [Tree.continues, h, Bool.or_true]
    · rename_i hne
      simp [Tree.continues, hne]
  | leaf | negation | nullTest | paren | group => rfl

theorem continues_of_top_ne {op : Operator} {t : Tree κ α} (h : op.isAssociative → t.top ≠ some op) :
    t.continues op := by
  cases t with
  | operation op' left right =>
    rw [Tree.continues]
    by_cases hassoc : op.isAssociative
    · have hne : op' ≠ op := fun heq => h hassoc (congrArg some heq)
      simp [hne]
    · simp [hassoc]
  | leaf | negation | nullTest | paren | group => rfl

/-! ## Unbroken trees are read back -/

/-- An operand whose own operator, in parentheses, is not the associative one in
front of it. -/
def ParenApart (op : Operator) (t : Tree κ α) : Prop :=
  ∀ x, t = .paren x → op.isAssociative → ¬op.isConnective → x.top ≠ some op

theorem FitsLeft.parenApart {op op' : Operator} {t : Tree κ α} (h : FitsLeft op' t) (hlevel : op.level = op'.level) :
    ParenApart op t := by
  intro x hx hassoc hconn htop
  have hcomparison : op'.level ≠ Operator.comparisonLevel := by
    rw [← hlevel]
    intro hc
    rw [Operator.not_isAssociative_of_comparison hc] at hassoc
    cases hassoc
  have hconn' : ¬op'.isConnective := fun hc => hconn (Operator.eq_of_level_eq hc hlevel ▸ hc)
  have := h.paren x hx hconn' hcomparison op htop
  omega

/-- An operand behind an operator: one of its own, or one that goes on with the
associative operator. -/
def Follows (op : Operator) (t : Tree κ α) : Prop :=
  op.level < t.level ∨ op.level = t.level ∧ op.isAssociative ∧ t.strip.follows op

theorem FitsRight.follows {op : Operator} {t : Tree κ α} (h : FitsRight op t) (hcont : t.strip.continues op) :
    Follows op t := by
  rcases h.level with hlt | ⟨hassoc, a, b, rfl⟩
  · exact .inl hlt
  · refine .inr ⟨rfl, hassoc, ?_⟩
    simpa [Tree.strip, Tree.continues, Tree.follows, hassoc] using hcont

/-- **Reading back an unbroken tree.** Behind an operator the tree is added to
its chain. -/
theorem normal_regroup_of_unbroken {t : Tree κ α} (h : t.Fits) (hun : t.strip.unbroken) :
    (Tree.regroup none t).normal = t.normal ∧
      ∀ left op, Follows op t →
        (Tree.regroup (some (left, op)) t).normal = Tree.nestLeft op left.normal t.normal := by
  induction h with
  | leaf a => exact ⟨rfl, fun left op _ => rfl⟩
  | @operation op l r hl hr hfl hfr ihl ihr =>
    simp only [Tree.strip, Tree.unbroken, Bool.and_eq_true] at hun
    obtain ⟨⟨hul, hur⟩, hcont⟩ := hun
    obtain ⟨ihl, ihl'⟩ := ihl hul
    obtain ⟨-, ihr'⟩ := ihr hur
    have hright := fun left => ihr' left op (hfr.follows hcont)
    have hnone : (Tree.regroup none (.operation op l r)).normal = (Tree.operation op l r).normal := by
      show (Tree.regroup (some (Tree.regroup none l, op)) r).normal = Tree.nestLeft op l.normal r.normal
      rw [hright, ihl]
    refine ⟨hnone, fun left op' hfollows => ?_⟩
    rw [Tree.regroup]
    rcases hfollows with hlt | ⟨hlevel, hassoc, hfollows⟩
    · have hne : op'.level ≠ op.level := hlt.ne
      have htakes : takesOver (some (left, op')) op = false := by simpa [takesOver] using hne
      rw [htakes, if_neg Bool.false_ne_true]
      exact congrArg (Tree.nestLeft op' left.normal) hnone
    · -- the same operator: the chains are joined
      have hsame : op = op' := by
        by_contra hne
        simp only [Tree.strip, Tree.follows, hne, if_false, bne_iff_ne] at hfollows
        exact hfollows hlevel.symm
      subst hsame
      have hl' : Follows op l := by
        rcases hfl.level.lt_or_eq with hlt | heq
        · exact .inl hlt
        · refine .inr ⟨heq, hassoc, ?_⟩
          simpa [Tree.strip, Tree.follows] using hfollows
      rw [takesOver, beq_self_eq_true, if_pos rfl, hright, ihl' left op hl', Tree.nestLeft_assoc hassoc]
      rfl
  | negation h ih =>
    have ih := (ih hun).1
    exact ⟨congrArg Tree.negation ih,
      fun left op _ => congrArg (fun t => Tree.nestLeft op left.normal (.negation t)) ih⟩
  | nullTest negated h hlevel ih =>
    have ih := (ih hun).1
    exact ⟨congrArg (Tree.nullTest · negated) ih,
      fun left op _ => congrArg (fun t => Tree.nestLeft op left.normal (.nullTest t negated)) ih⟩
  | paren h ih =>
    have ih := (ih hun).1
    exact ⟨ih, fun left op _ => congrArg (Tree.nestLeft op left.normal) ih⟩
  | @group head parts h ih =>
    simp only [Tree.strip, Tree.unbroken, stripEach_eq_map, unbrokenEach_eq_all, List.all_map, List.all_eq_true] at hun
    have hparts : normalEach (regroupEach parts) = normalEach parts := by
      rw [normalEach_eq_map, normalEach_eq_map, regroupEach_eq_map, List.map_map]
      exact List.map_congr_left fun t ht => (ih t ht (hun t ht)).1
    exact ⟨congrArg (Tree.group head) hparts,
      fun left op _ => congrArg (fun ts => Tree.nestLeft op left.normal (.group head ts)) hparts⟩

/-! ## Broken trees are not -/

mutual
/-- The number of leaves and heads. -/
def Tree.size : Tree κ α → Nat
  | .leaf _ => 1
  | .operation _ left right => left.size + right.size
  | .negation t => t.size
  | .nullTest t _ => t.size
  | .paren t => t.size
  | .group _ parts => 1 + sizeEach parts
/-- The size of some trees together. -/
def sizeEach : List (Tree κ α) → Nat
  | [] => 0
  | t :: ts => t.size + sizeEach ts
end

theorem sizeEach_eq_sum (ts : List (Tree κ α)) : sizeEach ts = (ts.map Tree.size).sum := by
  induction ts with
  | nil => rfl
  | cons t ts ih => rw [sizeEach, ih, List.map_cons, List.sum_cons]

theorem Tree.size_pos (t : Tree κ α) : 0 < t.size := by
  induction t using Tree.induction with
  | leaf a => exact Nat.one_pos
  | operation op left right ihl _ => exact Nat.add_pos_left ihl _
  | negation t ih => exact ih
  | nullTest t negated ih => exact ih
  | paren t ih => exact ih
  | group head parts _ => exact Nat.add_pos_left Nat.one_pos _

theorem Tree.size_nestLeft (op : Operator) (a b : Tree κ α) : (Tree.nestLeft op a b).size = a.size + b.size := by
  induction b using Tree.induction with
  | operation op' c d ih _ =>
    rw [Tree.nestLeft]
    split
    · rw [Tree.size, ih, Tree.size, Nat.add_assoc]
    · rfl
  | leaf a | negation t _ | nullTest t negated _ | paren t _ | group head parts _ => rfl

theorem Tree.size_normal (t : Tree κ α) : t.normal.size = t.size := by
  induction t using Tree.induction with
  | leaf a => rfl
  | operation op left right ihl ihr => rw [Tree.normal, Tree.size_nestLeft, ihl, ihr, Tree.size]
  | negation t ih => exact ih
  | nullTest t negated ih => exact ih
  | paren t ih => exact ih
  | group head parts ih =>
    rw [Tree.normal, Tree.size, Tree.size, normalEach_eq_map, sizeEach_eq_sum, sizeEach_eq_sum, List.map_map]
    exact congrArg (fun sizes => 1 + List.sum sizes) (List.map_congr_left ih)

/-- What a right operand counts; connectives are alone on their levels and do
not break. -/
def charge (op : Operator) (n : Nat) : Nat := if op.isConnective then 0 else n

mutual
/-- How much stands on the right: every leaf is counted once for each operation
in whose right operand it is. -/
def Tree.weight : Tree κ α → Nat
  | .leaf _ => 0
  | .operation op left right => left.weight + right.weight + charge op right.size
  | .negation t => t.weight
  | .nullTest t _ => t.weight
  | .paren t => t.weight
  | .group _ parts => weightEach parts
/-- The weight of some trees together. -/
def weightEach : List (Tree κ α) → Nat
  | [] => 0
  | t :: ts => t.weight + weightEach ts
end

theorem weightEach_eq_sum (ts : List (Tree κ α)) : weightEach ts = (ts.map Tree.weight).sum := by
  induction ts with
  | nil => rfl
  | cons t ts ih => rw [weightEach, ih, List.map_cons, List.sum_cons]

/-- The first operand of a chain of the operator. -/
def Tree.first (op : Operator) : Tree κ α → Tree κ α
  | .operation op' a b => if op' = op ∧ op.isAssociative then a.first op else .operation op' a b
  | t => t

theorem Tree.first_of_top_ne {op : Operator} {t : Tree κ α} (h : op.isAssociative → t.top ≠ some op) :
    t.first op = t := by
  cases t with
  | operation op' a b =>
    have hne : ¬(op' = op ∧ op.isAssociative) := fun ⟨heq, hassoc⟩ => h hassoc (congrArg some heq)
    rw [Tree.first, if_neg hne]
  | leaf | negation | nullTest | paren | group => rfl

theorem Tree.first_nestLeft {op : Operator} (h : op.isAssociative) (a b : Tree κ α) :
    (Tree.nestLeft op a b).first op = a.first op := by
  induction b using Tree.induction with
  | operation op' c d ih _ =>
    rw [Tree.nestLeft]
    split
    · rw [Tree.first, if_pos ⟨rfl, h⟩, ih]
    · rw [Tree.first, if_pos ⟨rfl, h⟩]
  | leaf a | negation t _ | nullTest t negated _ | paren t _ | group head parts _ => exact if_pos ⟨rfl, h⟩

/-- An operation counts the first operand of its right chain; the others are
counted in the chain. -/
theorem Tree.weight_nestLeft (op : Operator) (a b : Tree κ α) :
    (Tree.nestLeft op a b).weight = a.weight + b.weight + charge op (b.first op).size := by
  induction b using Tree.induction with
  | operation op' c d ih _ =>
    rw [Tree.nestLeft, Tree.first]
    split
    · rename_i hsame
      obtain ⟨rfl, -⟩ := hsame
      rw [Tree.weight, ih, Tree.weight]
      omega
    · rfl
  | leaf a | negation t _ | nullTest t negated _ | paren t _ | group head parts _ => rfl

theorem weight_normal_operation (op : Operator) (left right : Tree κ α) :
    (Tree.operation op left right).normal.weight =
      left.normal.weight + right.normal.weight + charge op (right.normal.first op).size := by
  rw [Tree.normal, Tree.weight_nestLeft]

/-- The operand that an operator is followed by, when the text of a tree is read
behind it. -/
def Tree.opening (op : Operator) : Tree κ α → Tree κ α
  | .operation op' a b => if op'.level = op.level then a.opening op else .operation op' a b
  | t => t

theorem Tree.size_opening_le (op : Operator) (t : Tree κ α) : (t.opening op).size ≤ t.size := by
  induction t using Tree.induction with
  | operation op' a b ih _ =>
    rw [Tree.opening]
    split
    · exact ih.trans (Nat.le_add_right _ _)
    · exact le_rfl
  | leaf a | negation t _ | nullTest t negated _ | paren t _ | group head parts _ => exact le_rfl

/-- The operator that is applied last stays the same. -/
theorem Tree.Fits.top_regroup {t : Tree κ α} (h : t.Fits) :
    (Tree.regroup none t).top = t.top ∧
      ∀ left op, FitsRight op t → (Tree.regroup (some (left, op)) t).top = some op := by
  induction h with
  | leaf a => exact ⟨rfl, fun left op _ => rfl⟩
  | @operation op l r hl hr hfl hfr ihl ihr =>
    have hnone : (Tree.regroup none (.operation op l r)).top = some op := ihr.2 _ op hfr
    refine ⟨hnone, fun left op' hfits => ?_⟩
    rw [Tree.regroup]
    rcases hfits.level with hlt | ⟨-, a, b, heq⟩
    · have hne : op'.level ≠ op.level := hlt.ne
      have htakes : takesOver (some (left, op')) op = false := by simpa [takesOver] using hne
      rw [htakes, if_neg Bool.false_ne_true]
      rfl
    · obtain ⟨rfl, rfl, rfl⟩ := Tree.operation.inj heq
      rw [takesOver, beq_self_eq_true, if_pos rfl]
      exact ihr.2 _ op hfr
  | negation h ih => exact ⟨rfl, fun left op _ => rfl⟩
  | nullTest negated h hlevel ih => exact ⟨rfl, fun left op _ => rfl⟩
  | paren h ih => exact ⟨ih.1, fun left op _ => rfl⟩
  | group head h ih => exact ⟨rfl, fun left op _ => rfl⟩

theorem Tree.Fits.size_regroup {t : Tree κ α} (h : t.Fits) :
    (Tree.regroup none t).size = t.size ∧
      ∀ left op, (Tree.regroup (some (left, op)) t).size = left.size + t.size := by
  induction h with
  | leaf a => exact ⟨rfl, fun left op => rfl⟩
  | @operation op l r hl hr hfl hfr ihl ihr =>
    have hnone : (Tree.regroup none (.operation op l r)).size = l.size + r.size := by
      refine (ihr.2 (Tree.regroup none l) op).trans ?_
      rw [ihl.1]
    refine ⟨hnone, fun left op' => ?_⟩
    rw [Tree.regroup]
    split
    · rw [ihr.2, ihl.2, Tree.size, Nat.add_assoc]
    · exact congrArg (left.size + ·) hnone
  | negation h ih => exact ⟨ih.1, fun left op => congrArg (left.size + ·) ih.1⟩
  | nullTest negated h hlevel ih => exact ⟨ih.1, fun left op => congrArg (left.size + ·) ih.1⟩
  | paren h ih => exact ⟨ih.1, fun left op => congrArg (left.size + ·) ih.1⟩
  | @group head parts h ih =>
    have hparts : sizeEach (regroupEach parts) = sizeEach parts := by
      rw [sizeEach_eq_sum, sizeEach_eq_sum, regroupEach_eq_map, List.map_map]
      exact congrArg List.sum (List.map_congr_left fun t ht => (ih t ht).1)
    exact ⟨congrArg (1 + ·) hparts, fun left op => congrArg (fun n => left.size + (1 + n)) hparts⟩

/-- What is read as an operand of its own counts as a whole. -/
theorem weight_attach {op : Operator} {t : Tree κ α} (h : t.Fits)
    (htop : op.isAssociative → ¬op.isConnective → t.top ≠ some op) (left : Tree κ α) :
    (Tree.operation op left (Tree.regroup none t)).normal.weight =
      left.normal.weight + (Tree.regroup none t).normal.weight + charge op t.size := by
  rw [weight_normal_operation]
  by_cases hconn : op.isConnective
  · simp [charge, hconn]
  · rw [Tree.first_of_top_ne, Tree.size_normal, h.size_regroup.1]
    intro hassoc
    rw [Tree.top_normal, h.top_regroup.1]
    exact htop hassoc hconn

/-- **The weight of what is read.** Behind an operator a tree weighs as much as
on its own, and its first operand once more. -/
theorem Tree.Fits.weight_regroup {t : Tree κ α} (h : t.Fits) (left : Tree κ α) (op : Operator)
    (hlevel : op.level ≤ t.level) (hapart : ParenApart op t) :
    (Tree.regroup (some (left, op)) t).normal.weight =
      left.normal.weight + (Tree.regroup none t).normal.weight + charge op (t.opening op).size := by
  induction h generalizing left op with
  | leaf a => exact weight_attach (.leaf a) (fun _ _ => by simp [Tree.top]) left
  | @operation op' l r hl hr hfl hfr ihl ihr =>
    have hright := fun left => ihr left op' hfr.level_le hfr.paren
    have hnone : (Tree.regroup none (.operation op' l r)).normal.weight =
        (Tree.regroup none l).normal.weight + (Tree.regroup none r).normal.weight +
          charge op' (r.opening op').size := hright _
    rw [Tree.regroup, Tree.opening]
    by_cases heq : op'.level = op.level
    · have htakes : takesOver (some (left, op)) op' := by simp [takesOver, heq]
      have hl' := ihl left op (heq ▸ hfl.level) (hfl.parenApart heq.symm)
      rw [htakes, if_pos rfl, if_pos heq, hright, hl', hnone]
      omega
    · have htakes : takesOver (some (left, op)) op' = false := by simpa [takesOver] using Ne.symm heq
      rw [htakes, if_neg Bool.false_ne_true, if_neg heq]
      refine weight_attach (.operation hl hr hfl hfr) (fun _ _ htop => ?_) left
      exact heq (congrArg Operator.level (Option.some.inj htop))
  | negation h ih => exact weight_attach (.negation h) (fun _ _ => by simp [Tree.top]) left
  | nullTest negated h hlt ih => exact weight_attach (.nullTest negated h hlt) (fun _ _ => by simp [Tree.top]) left
  | @paren t h ih => exact weight_attach (.paren h) (hapart t rfl) left
  | group head h ih => exact weight_attach (.group head h) (fun _ _ => by simp [Tree.top]) left

/-- The operand that is read behind an operator is at most the first one of the
chain, and is that one if the tree goes on with the operator alone. -/
theorem Tree.Fits.size_opening {t : Tree κ α} (h : t.Fits) {op : Operator} (hassoc : op.isAssociative)
    (hconn : ¬op.isConnective) (hfits : FitsLeft op t) :
    (t.opening op).size ≤ (t.normal.first op).size ∧
      ((t.opening op).size = (t.normal.first op).size ↔ t.strip.follows op) := by
  induction h with
  | leaf a => exact ⟨le_rfl, fun _ => rfl, fun _ => rfl⟩
  | @operation op' l r hl hr hfl hfr ihl ihr =>
    by_cases heq : op' = op
    · subst heq
      have ihl := ihl hfl
      rw [Tree.opening, if_pos rfl, Tree.normal, Tree.first_nestLeft hassoc, Tree.strip, Tree.follows, if_pos rfl]
      exact ihl
    · have hfirst : ((Tree.operation op' l r).normal.first op).size = l.size + r.size := by
        rw [Tree.first_of_top_ne, Tree.size_normal, Tree.size]
        intro _ htop
        rw [Tree.top_normal] at htop
        exact heq (Option.some.inj htop)
      rw [hfirst, Tree.opening, Tree.strip, Tree.follows, if_neg heq, bne_iff_ne]
      by_cases hlevel : op'.level = op.level
      · -- another operator of the level is torn apart
        have hle := l.size_opening_le op
        have hpos := r.size_pos
        rw [if_pos hlevel]
        exact ⟨by omega, fun h => by omega, fun h => absurd hlevel h⟩
      · rw [if_neg hlevel]
        exact ⟨le_rfl, fun _ => hlevel, fun _ => rfl⟩
  | negation h ih => exact ⟨(Tree.size_normal _).ge, fun _ => rfl, fun _ => (Tree.size_normal _).symm⟩
  | nullTest negated h hlt ih => exact ⟨(Tree.size_normal _).ge, fun _ => rfl, fun _ => (Tree.size_normal _).symm⟩
  | @paren t h ih =>
    have hcomparison : op.level ≠ Operator.comparisonLevel := by
      intro hc
      rw [Operator.not_isAssociative_of_comparison hc] at hassoc
      cases hassoc
    have hlt := hfits.paren t rfl hconn hcomparison
    have hsize : ((Tree.paren t).normal.first op).size = t.size := by
      rw [Tree.first_of_top_ne, Tree.size_normal, Tree.size]
      intro _ htop
      rw [Tree.top_normal] at htop
      exact lt_irrefl _ (hlt op htop)
    have hfollows : (Tree.paren t).strip.follows op := by
      rw [Tree.strip]
      cases hs : t.strip with
      | operation op' a b =>
        have htop := top_strip t
        rw [hs] at htop
        have := hlt op' htop.symm
        rw [Tree.follows]
        split
        · rename_i heq
          exact absurd this (by rw [heq]; exact lt_irrefl _)
        · simpa using this.ne
      | leaf | negation | nullTest | paren | group => rfl
    rw [hsize]
    exact ⟨le_rfl, fun _ => hfollows, fun _ => rfl⟩
  | group head h ih => exact ⟨(Tree.size_normal _).ge, fun _ => rfl, fun _ => (Tree.size_normal _).symm⟩

theorem Tree.opening_of_level_lt {op : Operator} {t : Tree κ α} (h : op.level < t.level) : t.opening op = t := by
  cases t with
  | operation op' a b => exact if_neg (ne_of_gt h)
  | leaf | negation | nullTest | paren | group => rfl

theorem FitsRight.top_ne {op : Operator} {t : Tree κ α} (h : FitsRight op t) (hlt : op.level < t.level)
    (hassoc : op.isAssociative) (hconn : ¬op.isConnective) : t.top ≠ some op := by
  cases t with
  | operation op' a b =>
    intro htop
    rw [Option.some.inj htop] at hlt
    exact lt_irrefl _ hlt
  | paren x => exact h.paren x rfl hassoc hconn
  | leaf | negation | nullTest | group => simp [Tree.top]

/-- What reading makes of a right operand weighs at most as much as the operand
does, and as much if the operand continues the chain. -/
theorem FitsRight.charge_opening {op : Operator} {t : Tree κ α} (h : t.Fits) (hfits : FitsRight op t) :
    charge op (t.opening op).size ≤ charge op (t.normal.first op).size ∧
      (charge op (t.opening op).size = charge op (t.normal.first op).size ↔ t.strip.continues op) := by
  by_cases hconn : op.isConnective
  · simp [charge, hconn, continues_of_follows (follows_of_isConnective hconn _)]
  · simp only [charge, hconn]
    rcases hfits.level with hlt | ⟨hassoc, a, b, rfl⟩
    · have hfirst : t.normal.first op = t.normal :=
        Tree.first_of_top_ne fun hassoc => by
          rw [Tree.top_normal]
          exact hfits.top_ne hlt hassoc hconn
      have hcont : t.strip.continues op := continues_of_top_ne fun hassoc => by
        rw [top_strip]
        exact hfits.top_ne hlt hassoc hconn
      rw [hfirst, Tree.size_normal, Tree.opening_of_level_lt hlt]
      exact ⟨le_rfl, fun _ => hcont, fun _ => rfl⟩
    · cases h with
      | operation ha hb hfl hfr =>
        have hcont : (Tree.operation op a b).strip.continues op = a.strip.follows op := by
          simp [Tree.strip, Tree.continues, hassoc]
        rw [Tree.opening, if_pos rfl, Tree.normal, Tree.first_nestLeft hassoc, hcont]
        exact ha.size_opening hassoc hconn hfl

/-- **Reading loses weight exactly where the tree is broken.** -/
theorem Tree.Fits.weight_regroup_le {t : Tree κ α} (h : t.Fits) :
    (Tree.regroup none t).normal.weight ≤ t.normal.weight ∧
      ((Tree.regroup none t).normal.weight = t.normal.weight ↔ t.strip.unbroken) := by
  induction h with
  | leaf a => exact ⟨le_rfl, fun _ => rfl, fun _ => rfl⟩
  | @operation op l r hl hr hfl hfr ihl ihr =>
    obtain ⟨hle, hiff⟩ := hfr.charge_opening hr
    have hread : (Tree.regroup none (.operation op l r)).normal.weight =
        (Tree.regroup none l).normal.weight + (Tree.regroup none r).normal.weight +
          charge op (r.opening op).size := hr.weight_regroup _ op hfr.level_le hfr.paren
    rw [hread, weight_normal_operation, Tree.strip, Tree.unbroken, Bool.and_eq_true, Bool.and_eq_true, ← ihl.2,
      ← ihr.2, ← hiff]
    have hl' := ihl.1
    have hr' := ihr.1
    refine ⟨by omega, fun heq => ?_, fun heq => ?_⟩ <;> omega
  | negation h ih => exact ih
  | nullTest negated h hlt ih => exact ih
  | paren h ih => exact ih
  | @group head parts h ih =>
    simp only [Tree.regroup, attach, Tree.normal, Tree.weight, Tree.strip, Tree.unbroken, normalEach_eq_map,
      regroupEach_eq_map, weightEach_eq_sum, stripEach_eq_map, unbrokenEach_eq_all, List.map_map, List.all_map]
    clear h
    induction parts with
    | nil => simp
    | cons t parts ihp =>
      obtain ⟨hle, hiff⟩ := ih t (by simp)
      obtain ⟨hle', hiff'⟩ := ihp fun t ht => ih t (by simp [ht])
      simp only [List.map_cons, List.sum_cons, List.all_cons, Function.comp_apply, Bool.and_eq_true]
      rw [← hiff, ← hiff']
      refine ⟨by omega, fun heq => ?_, fun heq => ?_⟩ <;> omega

/-- **A tree is read back up to regrouping exactly when it is unbroken.** -/
theorem Tree.normal_regroup {t : Tree κ α} (h : t.Fits) :
    (Tree.regroup none t).normal = t.strip.normal ↔ t.strip.unbroken := by
  rw [Tree.normal_strip]
  exact ⟨fun heq => h.weight_regroup_le.2.1 (congrArg Tree.weight heq),
    fun hun => (normal_regroup_of_unbroken h hun).1⟩

end ParamQuery.Sql
