/-
What a `CASE` means. SQL has three truth values; an arm is taken when the
conjunction of its guards is true, the first such arm decides, and without one
it is the value behind `ELSE`.

`caseValue_flatten`: the arms of a decision tree have the value of the tree, in
which a test that is not true leads to the false branch. `Expr.decision` is the
tree of a nested conditional; its flattening is what the conditional is written
as (`conditional_case`).
-/
import ParamQuery.Proofs.ExprFacts
import Mathlib

namespace ParamQuery.Sql

/-! ## Truth values -/

/-- The truth values of SQL. A comparison with a missing value is unknown. -/
inductive Truth where
  | yes
  | no
  | unknown
deriving DecidableEq

/-- What is false beside anything is false; otherwise the unknown wins. -/
def Truth.and : Truth → Truth → Truth
  | .no, _ | _, .no => .no
  | .yes, t => t
  | .unknown, _ => .unknown

/-- The conjunction of guards. -/
def Truth.all (ts : List Truth) : Truth := ts.foldr Truth.and .yes

theorem Truth.and_eq_yes {s t : Truth} : s.and t = .yes ↔ s = .yes ∧ t = .yes := by
  cases s <;> cases t <;> decide

/-- A conjunction is true when each of its parts is. -/
theorem Truth.all_eq_yes {ts : List Truth} : Truth.all ts = .yes ↔ ∀ t ∈ ts, t = .yes := by
  induction ts with
  | nil => simp [Truth.all]
  | cons t ts ih => simpa [Truth.all, Truth.and_eq_yes] using fun _ => ih

variable {α V : Type}

theorem Truth.all_map_eq_yes {truth : α → Truth} {guards : List α} :
    Truth.all (guards.map truth) = .yes ↔ ∀ g ∈ guards, truth g = .yes := by
  rw [Truth.all_eq_yes, List.forall_mem_map]

/-! ## Trees and arms -/

namespace Decision

/-- The value of a tree: a test that is not true leads to the false branch. -/
def value (truth : α → Truth) (value : α → V) : Decision α → V
  | .leaf a => value a
  | .test condition ifTrue ifFalse =>
    if truth condition = .yes then ifTrue.value truth value else ifFalse.value truth value

/-- The leaves from left to right. -/
def leaves : Decision α → List α
  | .leaf a => [a]
  | .test _ ifTrue ifFalse => ifTrue.leaves ++ ifFalse.leaves

/-- The tests, each in front of those in its branches. -/
def tests : Decision α → List α
  | .leaf _ => []
  | .test condition ifTrue ifFalse => condition :: (ifTrue.tests ++ ifFalse.tests)

end Decision

/-- The value of a `CASE`: that of the first arm whose guards are true together,
or the one behind `ELSE`. -/
def caseValue (truth : α → Truth) (value : α → V) (otherwise : α) : List (List α × α) → V
  | [] => value otherwise
  | (guards, result) :: arms =>
    if Truth.all (guards.map truth) = .yes then value result else caseValue truth value otherwise arms

section Meaning

variable (truth : α → Truth) (value : α → V)

/-- Under a guard that is not true no arm of a tree is taken. -/
theorem caseValue_skip {guards : List α} (h : ¬∀ g ∈ guards, truth g = .yes) (d : Decision α)
    (otherwise : α) (rest : List (List α × α)) :
    caseValue truth value otherwise ((d.flattenUnder guards).1 ++ rest) =
      caseValue truth value otherwise rest := by
  induction d generalizing guards rest with
  | leaf a => rfl
  | test condition ifTrue ifFalse ihT ihF =>
    have hinner : ¬∀ g ∈ guards ++ [condition], truth g = .yes :=
      fun hall => h fun g hg => hall g (List.mem_append_left _ hg)
    have hguard : Truth.all ((guards ++ [condition]).map truth) ≠ .yes := mt Truth.all_map_eq_yes.1 hinner
    simp only [Decision.flattenUnder, List.append_assoc, List.cons_append]
    rw [ihT hinner, caseValue, if_neg hguard, ihF h]

/-- The arms of a tree under true guards, in front of arms that give the value
which the tree leaves over. -/
theorem caseValue_flattenUnder {guards : List α} (h : ∀ g ∈ guards, truth g = .yes) (d : Decision α)
    {otherwise : α} {rest : List (List α × α)}
    (hrest : caseValue truth value otherwise rest = value (d.flattenUnder guards).2) :
    caseValue truth value otherwise ((d.flattenUnder guards).1 ++ rest) = d.value truth value := by
  induction d generalizing guards rest with
  | leaf a => exact hrest
  | test condition ifTrue ifFalse ihT ihF =>
    simp only [Decision.flattenUnder, List.append_assoc, List.cons_append] at hrest ⊢
    by_cases hc : truth condition = .yes
    · -- the value left over from the true branch has the arm behind it
      have hinner : ∀ g ∈ guards ++ [condition], truth g = .yes := by
        intro g hg
        rcases List.mem_append.1 hg with hg | hg
        · exact h g hg
        · exact List.mem_singleton.1 hg ▸ hc
      have hguard : Truth.all ((guards ++ [condition]).map truth) = .yes := Truth.all_map_eq_yes.2 hinner
      rw [Decision.value, if_pos hc]
      exact ihT hinner (by rw [caseValue, if_pos hguard])
    · have hinner : ¬∀ g ∈ guards ++ [condition], truth g = .yes := fun hall => hc (hall condition (by simp))
      have hguard : Truth.all ((guards ++ [condition]).map truth) ≠ .yes := mt Truth.all_map_eq_yes.1 hinner
      rw [Decision.value, if_neg hc, caseValue_skip truth value hinner, caseValue, if_neg hguard]
      exact ihF h hrest

/-- **Flattening keeps the meaning.** -/
theorem caseValue_flatten (d : Decision α) :
    caseValue truth value d.flatten.2 d.flatten.1 = d.value truth value := by
  have hrest : caseValue truth value d.flatten.2 [] = value d.flatten.2 := rfl
  have h := caseValue_flattenUnder truth value (List.forall_mem_nil _) d hrest
  rwa [List.append_nil] at h

end Meaning

/-- The values of the arms and the one behind `ELSE` are the leaves. -/
theorem Decision.values_flattenUnder (d : Decision α) (guards : List α) :
    (d.flattenUnder guards).1.map (·.2) ++ [(d.flattenUnder guards).2] = d.leaves := by
  induction d generalizing guards with
  | leaf a => rfl
  | test condition ifTrue ifFalse ihT ihF =>
    simp only [Decision.flattenUnder, Decision.leaves, List.map_append, List.map_cons]
    rw [← ihT (guards ++ [condition]), ← ihF guards]
    simp

/-- The last guard of an arm is the test that the arm is for; every test has one
arm. -/
theorem Decision.tests_flattenUnder (d : Decision α) (guards : List α) :
    ((d.flattenUnder guards).1.map fun arm => arm.1.getLast?).Perm (d.tests.map some) := by
  induction d generalizing guards with
  | leaf a => exact .refl _
  | test condition ifTrue ifFalse ihT ihF =>
    simp only [Decision.flattenUnder, Decision.tests, List.map_append, List.map_cons, List.getLast?_append,
      List.getLast?_singleton, Option.some_or]
    exact List.perm_middle.trans (((ihT _).append (ihF _)).cons _)

theorem Decision.map_map {β γ : Type} (g : β → γ) (f : α → β) (d : Decision α) :
    (d.map f).map g = d.map fun a => g (f a) := by
  induction d with
  | leaf a => rfl
  | test condition ifTrue ifFalse ihT ihF => exact congrArg₂ (Decision.test _) ihT ihF

end ParamQuery.Sql

/-! ## Conditionals -/

namespace ParamQuery

open Sql

/-- The tree of a conditional: its tests and the values in its branches. -/
def Expr.decision : Expr → Decision Expr
  | .conditional test ifTrue ifFalse => .test test ifTrue.decision ifFalse.decision
  | e => .leaf e

/-- Inside the arms of a `CASE`. -/
def Mode.arm : Mode := { insideCase := true }

/-- The branches of an expression inside an arm are those of its tree, each
written on its own. -/
theorem Expr.tree_emit (e : Expr) (sc : Scope) :
    (e.emit sc Mode.arm false).tree = e.decision.map fun x => (x.emit sc Mode.arm false).term := by
  induction e using Expr.induction with
  | conditional test ifTrue ifFalse _ ihT ihF =>
    show Decision.test _ _ _ = Decision.test _ _ _
    exact congrArg₂ (Decision.test _) ihT ihF
  | source s _ =>
    obtain ⟨typeName, members, own, _ | ⟨outer, inner⟩⟩ := s
    · simp only [Expr.decision, Decision.map, Expr.emit, Source.emit]
      split <;> rfl
    · rfl
  | subquery q _ => rfl
  | binary op left right _ _ =>
    simp only [Expr.decision, Decision.map, Expr.emit]
    split
    · rfl
    · split <;> rfl
  | constant v => rfl
  | member root path type _ =>
    simp only [Expr.decision, Decision.map, Expr.emit]
    split <;> rfl
  | call method receiver arguments _ _ =>
    simp only [Expr.decision, Decision.map, Expr.emit]
    split
    · rfl
    · cases receiver <;> rfl
  | project items _ =>
    simp only [Expr.decision, Decision.map, Expr.emit]
    split <;> rfl
  | unary op operand _ => cases op <;> rfl

/-- **A nested conditional is one `CASE` with the same meaning.** Let `d` be the
tree of a conditional, `α` the places of its tests and leaves. The conditional is
written as the arms of `d`, each place as its own expression. Whatever truth the
tests have and whatever the leaves are worth, the `CASE` is worth what the tree
is. There is one arm for each test, and the leaves stand once each, from left to
right, behind `THEN` and at last behind `ELSE`. -/
theorem conditional_case {α V : Type} {d : Decision α} {expr : α → Expr} {test ifTrue ifFalse : Expr}
    (hd : d.map expr = (Expr.conditional test ifTrue ifFalse).decision) (sc : Scope) (m : Mode) (beside : Bool)
    (truth : α → Truth) (value : α → V) :
    let write := fun a => ((expr a).emit sc Mode.arm false).term
    ((Expr.conditional test ifTrue ifFalse).emit sc m beside).term =
        .caseWhen (d.flatten.1.map fun arm => ⟨arm.1.map write, write arm.2⟩) (write d.flatten.2) ∧
      caseValue truth value d.flatten.2 d.flatten.1 = d.value truth value ∧
      (d.flatten.1.map fun arm => arm.1.getLast?).Perm (d.tests.map some) ∧
      d.flatten.1.map (·.2) ++ [d.flatten.2] = d.leaves := by
  intro write
  refine ⟨?_, caseValue_flatten truth value d, d.tests_flattenUnder [], d.values_flattenUnder []⟩
  have htree : ((Expr.conditional test ifTrue ifFalse).emit sc m beside).tree = d.map write := by
    have hwrite := (Expr.conditional test ifTrue ifFalse).tree_emit sc
    rw [← hd, Decision.map_map] at hwrite
    exact hwrite
  have hflat := Decision.flattenUnder_map write d []
  rw [Emitted.term, htree]
  cases d with
  | leaf a => cases hd
  | test a d₁ d₂ =>
    show Term.caseWhen _ _ = _
    rw [List.map_nil] at hflat
    rw [Decision.flatten, hflat, List.map_map]
    rfl

/-- A test that stands in two places: true at the outer one and unknown at the
inner one, it leads to the second of the three leaves. -/
theorem twofold_test_case :
    let flag : Expr := .member none ["flag"] .boolean
    let branch : Nat → Expr := fun n => .constant (.int (.ofNat n))
    let d : Decision Nat := .test 0 (.test 1 (.leaf 2) (.leaf 3)) (.leaf 4)
    let expr : Nat → Expr := fun n => if n < 2 then flag else branch n
    let truth : Nat → Truth := fun n => if n = 0 then .yes else .unknown
    d.map expr = (Expr.conditional flag (.conditional flag (branch 2) (branch 3)) (branch 4)).decision ∧
      d.flatten = ([([0, 1], 2), ([0], 3)], 4) ∧
      caseValue truth id d.flatten.2 d.flatten.1 = 3 := by
  intro flag branch d expr truth
  have hd : d.map expr = (Expr.conditional flag (.conditional flag (branch 2) (branch 3)) (branch 4)).decision := rfl
  exact ⟨hd, rfl, (conditional_case hd { table := {} } {} false truth id).2.1⟩

end ParamQuery
