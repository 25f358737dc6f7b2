/-
The grammar of expressions, for any table of operators. A phrase is a tree in
which every operand binds strongly enough, at the edge that it turns to its
operator, to stay in one piece (`Tree.IsPhrase`). Everything else about a tree, its
operands and its keywords, does not depend on the table (`Tree.Formed`).
-/
import ParamQuery.Proofs.OperatorGrammar

namespace ParamQuery.Sql

/-! ## Edges -/

section Edges

variable {κ α : Type}

/-- The weakest operator on the left edge of a tree. -/
def Tree.leftEdge (T : Precedence) : Tree κ α → Nat
  | .operation op left _ => min (T.operator op) (left.leftEdge T)
  | .nullTest t _ => min T.nullTest (t.leftEdge T)
  | _ => T.atom

/-- The weakest operator on the right edge of a tree. -/
def Tree.rightEdge (T : Precedence) : Tree κ α → Nat
  | .operation op _ right => min (T.operator op) (right.rightEdge T)
  | .negation t => min T.negation (t.rightEdge T)
  | _ => T.atom

end Edges

/-! ## The words of a tree -/

/-- Lists with others behind each of them. -/
def weave {β : Type} : List (List β) → List (List β) → List β
  | p :: ps, k :: ks => p ++ k ++ weave ps ks
  | ps, ks => ps.flatten ++ ks.flatten

mutual
/-- The words of a tree, with its parentheses. -/
def Tree.words : ReadTree → List Word
  | .leaf ws => ws
  | .operation op left right => left.words ++ .plain op.symbol :: right.words
  | .negation t => .plain "NOT" :: t.words
  | .nullTest t negated =>
    t.words ++ (if negated then [.plain "IS", .plain "NOT", .plain "NULL"] else [.plain "IS", .plain "NULL"])
  | .paren t => .plain "(" :: t.words ++ [.plain ")"]
  | .group head parts => head.headD [] ++ weave (wordsEach parts) head.tail
/-- The words of each of some trees. -/
def wordsEach : List ReadTree → List (List Word)
  | [] => []
  | t :: ts => t.words :: wordsEach ts
end

theorem wordsEach_eq_map (ts : List ReadTree) : wordsEach ts = ts.map Tree.words := by
  induction ts with
  | nil => rfl
  | cons t ts ih => rw [wordsEach, ih, List.map_cons]

/-! ## The grammar -/

/-- The words of an operand without operators. -/
inductive IsOperand : List Word → Prop
  | quoted (quote : Char) (content : String) : IsOperand [.quoted quote content]
  | parameter (sigil : Char) (name : String) : IsOperand [.parameter sigil name]
  | number {s : String} (h : isNumber s) : IsOperand [.plain s]
  | statement {ws : List Word} (h : ws.foldlM Word.nest 0 = some 0) :
      IsOperand (.plain "(" :: .plain "SELECT" :: ws ++ [.plain ")"])
  | field {ws : List Word} (h : IsOperand ws) (quote : Char) (content : String) :
      IsOperand (ws ++ [.plain ".", .quoted quote content])

/-- The keywords of a call or a `CASE` up to some place, with the word that ends
it. -/
inductive IsHead : String → List (List Word) → Prop
  | case : IsHead "END" [[.plain "CASE"]]
  | call {name : String} (h : isName name) : IsHead ")" [[.plain name, .plain "("]]
  | keyword {closer s : String} {head : List (List Word)} (h : IsHead closer head) (hs : isKeyword s) :
      IsHead closer (extendLast (.plain s) head)
  | part {closer s : String} {head : List (List Word)} (h : IsHead closer head) (hs : isPartKeyword s) :
      IsHead closer (head ++ [[.plain s]])

/-- The trees of operands and keywords, whatever binds more strongly. -/
inductive Tree.Formed : ReadTree → Prop
  | leaf {ws : List Word} (h : IsOperand ws) : Tree.Formed (.leaf ws)
  | operation (op : Operator) {left right : ReadTree} (hl : left.Formed) (hr : right.Formed) :
      Tree.Formed (.operation op left right)
  | negation {t : ReadTree} (h : t.Formed) : Tree.Formed (.negation t)
  | nullTest (negated : Bool) {t : ReadTree} (h : t.Formed) : Tree.Formed (.nullTest t negated)
  | paren {t : ReadTree} (h : t.Formed) : Tree.Formed (.paren t)
  | group {closer : String} {head : List (List Word)} {parts : List ReadTree} (hhead : IsHead closer head)
      (hlength : head.length = parts.length) (h : ∀ t ∈ parts, t.Formed) :
      Tree.Formed (.group (head ++ [[.plain closer]]) parts)

/-- The trees of the grammar. -/
inductive Tree.IsPhrase (T : Precedence) : ReadTree → Prop
  | leaf {ws : List Word} (h : IsOperand ws) : Tree.IsPhrase T (.leaf ws)
  | operation {op : Operator} {left right : ReadTree} (hl : left.IsPhrase T) (hr : right.IsPhrase T)
      (hleft : T.StopsAt (T.operator op) (left.rightEdge T)) (hright : T.operator op < right.leftEdge T) :
      Tree.IsPhrase T (.operation op left right)
  | negation {t : ReadTree} (h : t.IsPhrase T) (hedge : T.negation < t.leftEdge T) : Tree.IsPhrase T (.negation t)
  | nullTest {t : ReadTree} (negated : Bool) (h : t.IsPhrase T) (hedge : T.StopsAt T.nullTest (t.rightEdge T)) :
      Tree.IsPhrase T (.nullTest t negated)
  | paren {t : ReadTree} (h : t.IsPhrase T) : Tree.IsPhrase T (.paren t)
  | group {closer : String} {head : List (List Word)} {parts : List ReadTree} (hhead : IsHead closer head)
      (hlength : head.length = parts.length) (h : ∀ t ∈ parts, t.IsPhrase T) :
      Tree.IsPhrase T (.group (head ++ [[.plain closer]]) parts)

/-! ## Words of groups -/

/-- The words of a call or a `CASE` up to some place. -/
def groupWords (head : List (List Word)) (parts : List ReadTree) : List Word :=
  head.headD [] ++ weave (parts.map Tree.words) head.tail

theorem words_group (head : List (List Word)) (parts : List ReadTree) :
    Tree.words (.group head parts) = groupWords head parts := by
  rw [Tree.words, wordsEach_eq_map]
  rfl

theorem weave_concat {a : Type} {ps ks : List (List a)} (h : ps.length = ks.length) (p k : List a) :
    weave (ps ++ [p]) (ks ++ [k]) = weave ps ks ++ p ++ k := by
  induction ps generalizing ks with
  | nil =>
    obtain rfl := List.length_eq_zero_iff.1 h.symm
    simp [weave]
  | cons q ps ih =>
    cases ks with
    | nil => cases h
    | cons l ks =>
      rw [List.cons_append, List.cons_append, weave, weave, ih (Nat.succ.inj h)]
      simp

theorem weave_extendLast (w : Word) {ps ks : List (List Word)} (h : ps.length = ks.length) (hks : ks ≠ []) :
    weave ps (extendLast w ks) = weave ps ks ++ [w] := by
  induction ps generalizing ks with
  | nil => exact absurd (List.length_eq_zero_iff.1 h.symm) hks
  | cons p ps ih =>
    cases ks with
    | nil => cases h
    | cons k ks =>
      cases ks with
      | nil =>
        obtain rfl := List.length_eq_zero_iff.1 (Nat.succ.inj h)
        simp [extendLast, weave]
      | cons l ks =>
        have hrest := ih (Nat.succ.inj h) (List.cons_ne_nil l ks)
        simp only [extendLast, weave, hrest, List.append_assoc]

theorem groupWords_part {head : List (List Word)} {parts : List ReadTree} (h : head.length = parts.length + 1)
    (t : ReadTree) (ws : List Word) :
    groupWords (head ++ [ws]) (parts ++ [t]) = groupWords head parts ++ t.words ++ ws := by
  cases head with
  | nil => cases h
  | cons first rest =>
    have hlength : (parts.map Tree.words).length = rest.length := by
      rw [List.length_map]
      exact (Nat.succ.inj h).symm
    simp [groupWords, weave_concat hlength]

theorem groupWords_keyword {head : List (List Word)} {parts : List ReadTree} (h : head.length = parts.length + 1)
    (w : Word) : groupWords (extendLast w head) parts = groupWords head parts ++ [w] := by
  cases head with
  | nil => cases h
  | cons first rest =>
    cases rest with
    | nil =>
      obtain rfl : parts = [] := List.length_eq_zero_iff.1 (Nat.succ.inj h).symm
      simp [groupWords, extendLast, weave]
    | cons l ks =>
      have hlength : (parts.map Tree.words).length = (l :: ks).length := by
        rw [List.length_map]
        exact (Nat.succ.inj h).symm
      simp [groupWords, extendLast, weave_extendLast w hlength (List.cons_ne_nil _ _)]

theorem length_extendLast (w : Word) {head : List (List Word)} (h : head ≠ []) :
    (extendLast w head).length = head.length := by
  induction head with
  | nil => exact absurd rfl h
  | cons ws head ih =>
    cases head with
    | nil => rfl
    | cons ws' head => simp only [extendLast, List.length_cons, ih (List.cons_ne_nil _ _)]

theorem IsHead.ne_nil {closer : String} {head : List (List Word)} (h : IsHead closer head) : head ≠ [] := by
  induction h with
  | case | call => exact List.cons_ne_nil _ _
  | @keyword closer s head h hs ih =>
    intro hnil
    have hlength := length_extendLast (.plain s) ih
    rw [hnil] at hlength
    exact ih (List.length_eq_zero_iff.1 hlength.symm)
  | part => exact List.concat_ne_nil _ _

/-- There is a last part. -/
theorem IsHead.exists_concat {closer : String} {head : List (List Word)} (h : IsHead closer head)
    {parts : List ReadTree} (hlength : head.length = parts.length) :
    ∃ ts t, parts = ts ++ [t] ∧ head.length = ts.length + 1 := by
  rcases List.eq_nil_or_concat' parts with rfl | ⟨ts, t, rfl⟩
  · exact absurd (List.length_eq_zero_iff.1 hlength) h.ne_nil
  · exact ⟨ts, t, rfl, by simpa using hlength⟩

theorem IsHead.closer_eq {closer : String} {head : List (List Word)} (h : IsHead closer head) :
    closer = "END" ∨ closer = ")" := by
  induction h with
  | case => exact .inl rfl
  | call => exact .inr rfl
  | keyword _ _ ih | part _ _ ih => exact ih

/-! ## Keywords -/

/-- The words in front of the first part of a call or a `CASE`. -/
def opensGroup (closer : String) : List Word → Bool
  | [.plain s] => s == "CASE" && closer == "END"
  | .plain s :: .plain s' :: ws =>
    (s == "CASE" && closer == "END" && isKeyword s' || isName s && s' == "(" && closer == ")") && ws.all Word.isKeyword
  | _ => false

/-- The words between two parts. -/
def separatesParts : List Word → Bool
  | .plain s :: ws => isPartKeyword s && ws.all Word.isKeyword
  | _ => false

theorem extendLast_concat (w : Word) (head : List (List Word)) (ws : List Word) :
    extendLast w (head ++ [ws]) = head ++ [ws ++ [w]] := by
  induction head with
  | nil => rfl
  | cons ws' head ih =>
    cases head with
    | nil => rfl
    | cons ws'' head => exact congrArg (ws' :: ·) ih

/-- Keywords behind the last ones. -/
theorem IsHead.keywords {closer : String} {head : List (List Word)} {ws ws' : List Word}
    (h : IsHead closer (head ++ [ws])) (hws : ws'.all Word.isKeyword) : IsHead closer (head ++ [ws ++ ws']) := by
  induction ws' generalizing ws with
  | nil => simpa using h
  | cons w ws' ih =>
    rw [List.all_cons, Bool.and_eq_true] at hws
    cases w with
    | plain s =>
      have hnext := IsHead.keyword h hws.1
      rw [extendLast_concat] at hnext
      simpa using ih hnext hws.2
    | quoted | parameter => cases hws.1

theorem isHead_of_opensGroup {closer : String} {ws : List Word} (h : opensGroup closer ws) : IsHead closer [ws] := by
  unfold opensGroup at h
  split at h
  · simp only [Bool.and_eq_true, beq_iff_eq] at h
    obtain ⟨rfl, rfl⟩ := h
    exact .case
  · rename_i s s' ws
    simp only [Bool.and_eq_true, Bool.or_eq_true, beq_iff_eq] at h
    obtain ⟨⟨⟨rfl, rfl⟩, hs⟩ | ⟨⟨hs, rfl⟩, rfl⟩, hws⟩ := h
    · have hcase : IsHead "END" ([] ++ [[Word.plain "CASE", Word.plain s']]) := .keyword .case hs
      exact hcase.keywords hws
    · have hcall : IsHead ")" ([] ++ [[Word.plain s, Word.plain "("]]) := .call hs
      exact hcall.keywords hws
  · cases h

theorem IsHead.separated {closer : String} {head : List (List Word)} (h : IsHead closer head) {ws : List Word}
    (hws : separatesParts ws) : IsHead closer (head ++ [ws]) := by
  unfold separatesParts at hws
  split at hws
  · rw [Bool.and_eq_true] at hws
    exact (h.part hws.1).keywords hws.2
  · cases hws

end ParamQuery.Sql
