/-
The SQL text of operator trees. `Tree.fragment` writes a tree as tokens: its
operators, its parentheses, and the keywords around the parts of its groups.
Such a text falls apart into the words of the tree (`Tree.Laid.falls`), so that
the reader can be run on it.
-/
import ParamQuery.Proofs.PhraseGrammar

namespace ParamQuery.Sql

variable {κ κ' α β γ : Type}

/-! ## Leaves -/

mutual
/-- A tree with its leaves, and the keywords of its groups, changed. -/
def Tree.map (h : κ → κ') (f : α → β) : Tree κ α → Tree κ' β
  | .leaf a => .leaf (f a)
  | .operation op left right => .operation op (left.map h f) (right.map h f)
  | .negation t => .negation (t.map h f)
  | .nullTest t negated => .nullTest (t.map h f) negated
  | .paren t => .paren (t.map h f)
  | .group head parts => .group (h head) (mapEach h f parts)
/-- Some trees, each with its heads and its leaves changed. -/
def mapEach (h : κ → κ') (f : α → β) : List (Tree κ α) → List (Tree κ' β)
  | [] => []
  | t :: ts => t.map h f :: mapEach h f ts
end

mutual
/-- The leaves from left to right. -/
def Tree.leaves : Tree κ α → List α
  | .leaf a => [a]
  | .operation _ left right => left.leaves ++ right.leaves
  | .negation t => t.leaves
  | .nullTest t _ => t.leaves
  | .paren t => t.leaves
  | .group _ parts => leavesEach parts
/-- The leaves of some trees, in order. -/
def leavesEach : List (Tree κ α) → List α
  | [] => []
  | t :: ts => t.leaves ++ leavesEach ts
end

variable (h : κ → κ') (f : α → β)

theorem mapEach_eq_map (ts : List (Tree κ α)) : mapEach h f ts = ts.map (Tree.map h f) := by
  induction ts with
  | nil => rfl
  | cons t ts ih => rw [mapEach, ih, List.map_cons]

theorem leavesEach_eq_flatMap (ts : List (Tree κ α)) : leavesEach ts = ts.flatMap Tree.leaves := by
  induction ts with
  | nil => rfl
  | cons t ts ih => rw [leavesEach, ih, List.flatMap_cons]

namespace Tree

theorem map_map {κ'' : Type} (h' : κ' → κ'') (f' : β → γ) (t : Tree κ α) :
    (t.map h f).map h' f' = t.map (fun k => h' (h k)) fun a => f' (f a) := by
  induction t using Tree.induction with
  | leaf a => rfl
  | operation op left right ihl ihr => simp only [Tree.map, ihl, ihr]
  | negation t ih => simp only [Tree.map, ih]
  | nullTest t negated ih => simp only [Tree.map, ih]
  | paren t ih => simp only [Tree.map, ih]
  | group head parts ih =>
    simp only [Tree.map, mapEach_eq_map, List.map_map]
    exact congrArg (Tree.group _) (List.map_congr_left ih)

theorem strip_map (t : Tree κ α) : (t.map h f).strip = t.strip.map h f := by
  induction t using Tree.induction with
  | leaf a => rfl
  | operation op left right ihl ihr => simp only [Tree.map, Tree.strip, ihl, ihr]
  | negation t ih => simp only [Tree.map, Tree.strip, ih]
  | nullTest t negated ih => simp only [Tree.map, Tree.strip, ih]
  | paren t ih => simp only [Tree.map, Tree.strip, ih]
  | group head parts ih =>
    simp only [Tree.map, Tree.strip, mapEach_eq_map, stripEach_eq_map, List.map_map]
    exact congrArg (Tree.group _) (List.map_congr_left ih)

theorem leaves_strip (t : Tree κ α) : t.strip.leaves = t.leaves := by
  induction t using Tree.induction with
  | leaf a => rfl
  | operation op left right ihl ihr => simp only [Tree.strip, Tree.leaves, ihl, ihr]
  | negation t ih => simpa only [Tree.strip, Tree.leaves] using ih
  | nullTest t negated ih => simpa only [Tree.strip, Tree.leaves] using ih
  | paren t ih => simpa only [Tree.strip, Tree.leaves] using ih
  | group head parts ih =>
    simp only [Tree.strip, Tree.leaves, stripEach_eq_map, leavesEach_eq_flatMap, List.flatMap_map]
    exact List.flatMap_congr ih

theorem level_map (t : Tree κ α) : (t.map h f).level = t.level := by cases t <;> rfl

theorem top_map (t : Tree κ α) : (t.map h f).top = t.top := by
  induction t using Tree.induction with
  | paren t ih => exact ih
  | leaf a | operation op left right _ _ | negation t _ | nullTest t negated _ | group head parts _ => rfl

/-- What is in parentheses in a mapped tree. -/
theorem eq_paren_of_map {t : Tree κ α} {x : Tree κ' β} (ht : t.map h f = .paren x) :
    ∃ y, t = .paren y ∧ x = y.map h f := by
  cases t with
  | paren y =>
    rw [Tree.map, Tree.paren.injEq] at ht
    exact ⟨y, rfl, ht.symm⟩
  | leaf | operation | negation | nullTest | group => simp [Tree.map] at ht

/-- The operands of a mapped tree. -/
theorem eq_operation_of_map {t : Tree κ α} {op : Operator} {l r : Tree κ' β} (ht : t.map h f = .operation op l r) :
    ∃ a b, t = .operation op a b ∧ a.map h f = l ∧ b.map h f = r := by
  cases t with
  | operation op' a b =>
    rw [Tree.map, Tree.operation.injEq] at ht
    exact ⟨a, b, by rw [ht.1], ht.2⟩
  | leaf | negation | nullTest | paren | group => simp [Tree.map] at ht

theorem fitsLeft_map {op : Operator} {t : Tree κ α} : FitsLeft op (t.map h f) ↔ FitsLeft op t := by
  constructor
  · intro ht
    refine ⟨level_map h f t ▸ ht.level, level_map h f t ▸ ht.comparison, fun x hx => ?_⟩
    have hparen := ht.paren (x.map h f) (by rw [hx, Tree.map])
    rwa [top_map] at hparen
  · intro ht
    refine ⟨(level_map h f t).symm ▸ ht.level, (level_map h f t).symm ▸ ht.comparison, fun x hx => ?_⟩
    obtain ⟨y, hy, rfl⟩ := eq_paren_of_map h f hx
    rw [top_map]
    exact ht.paren y hy

theorem fitsRight_map {op : Operator} {t : Tree κ α} : FitsRight op (t.map h f) ↔ FitsRight op t := by
  constructor
  · intro ht
    refine ⟨?_, fun x hx => ?_⟩
    · rw [← level_map h f t]
      refine ht.level.imp_right fun ⟨hassoc, a, b, hab⟩ => ⟨hassoc, ?_⟩
      obtain ⟨l, r, hlr, -⟩ := eq_operation_of_map h f hab
      exact ⟨l, r, hlr⟩
    · have hparen := ht.paren (x.map h f) (by rw [hx, Tree.map])
      rwa [top_map] at hparen
  · intro ht
    refine ⟨?_, fun x hx => ?_⟩
    · rw [level_map]
      refine ht.level.imp_right ?_
      rintro ⟨hassoc, a, b, rfl⟩
      exact ⟨hassoc, _, _, rfl⟩
    · obtain ⟨y, hy, rfl⟩ := eq_paren_of_map h f hx
      rw [top_map]
      exact ht.paren y hy

/-- Parentheses fit whatever the leaves are. -/
theorem Fits.map {t : Tree κ α} (ht : t.Fits) : (t.map h f).Fits := by
  induction ht with
  | leaf a => exact .leaf _
  | operation _ _ hfl hfr ihl ihr => exact .operation ihl ihr ((fitsLeft_map h f).2 hfl) ((fitsRight_map h f).2 hfr)
  | negation _ ih => exact .negation ih
  | nullTest negated _ hlevel ih => exact .nullTest negated ih (by rwa [level_map])
  | paren _ ih => exact .paren ih
  | group head _ ih =>
    rw [Tree.map, mapEach_eq_map]
    refine .group _ fun u hu => ?_
    obtain ⟨t, ht, rfl⟩ := List.mem_map.1 hu
    exact ih t ht

theorem Fits.of_map {t : Tree κ α} (ht : (t.map h f).Fits) : t.Fits := by
  induction t using Tree.induction with
  | leaf a => exact .leaf a
  | operation op left right ihl ihr =>
    cases ht with
    | operation hl hr hfl hfr =>
      exact .operation (ihl hl) (ihr hr) ((fitsLeft_map h f).1 hfl) ((fitsRight_map h f).1 hfr)
  | negation t ih =>
    rw [Tree.map] at ht
    generalize ht' : t.map h f = t' at ht ih
    cases ht with
    | negation hp =>
      obtain ⟨y, rfl, rfl⟩ := eq_paren_of_map h f ht'
      cases ih (.paren hp) with
      | paren hy => exact .negation hy
  | nullTest t negated ih =>
    cases ht with
    | nullTest _ ht hlevel => exact .nullTest negated (ih ht) (by rwa [level_map] at hlevel)
  | paren t ih =>
    cases ht with
    | paren ht => exact .paren (ih ht)
  | group head parts ih =>
    rw [Tree.map, mapEach_eq_map] at ht
    cases ht with
    | group _ hparts => exact .group head fun t ht => ih t ht (hparts _ (List.mem_map.2 ⟨t, ht, rfl⟩))

theorem follows_map (op : Operator) (t : Tree κ α) : (t.map h f).follows op = t.follows op := by
  induction t using Tree.induction with
  | operation op' left right ihl _ => simp only [Tree.map, Tree.follows, ihl]
  | leaf a | negation t _ | nullTest t negated _ | paren t _ | group head parts _ => rfl

theorem unbroken_map (t : Tree κ α) : (t.map h f).unbroken = t.unbroken := by
  induction t using Tree.induction with
  | leaf a => rfl
  | operation op left right ihl ihr =>
    have hcontinues : (right.map h f).continues op = right.continues op := by
      cases right with
      | operation op' a b => simp only [Tree.map, Tree.continues, follows_map]
      | leaf | negation | nullTest | paren | group => rfl
    simp only [Tree.map, Tree.unbroken, ihl, ihr, hcontinues]
  | negation t ih => simpa only [Tree.map, Tree.unbroken] using ih
  | nullTest t negated ih => simpa only [Tree.map, Tree.unbroken] using ih
  | paren t ih => simpa only [Tree.map, Tree.unbroken] using ih
  | group head parts ih =>
    simp only [Tree.map, Tree.unbroken, mapEach_eq_map, unbrokenEach_eq_all, List.all_map]
    rw [Bool.eq_iff_iff, List.all_eq_true, List.all_eq_true]
    exact forall₂_congr fun t ht => by rw [Function.comp_apply, ih t ht]

end Tree

/-! ## Tokens -/

/-- An operator as it stands between its operands. -/
def Operator.text : Operator → String
  | .binary op => op.padded
  | .arrow false => "->"
  | .arrow true => "->>"
  | .like => " LIKE "

/-- The keywords around the parts of a group, as texts: in front of the first
part, and behind each part. -/
abbrev Head := List (List String)

mutual
/-- A tree as tokens. -/
def Tree.fragment (text : α → Fragment β) : Tree Head α → Fragment β
  | .leaf a => text a
  | .operation op left right => left.fragment text ++ Token.text op.text :: right.fragment text
  | .negation (.paren t) => Token.text "NOT (" :: t.fragment text ++ [Token.text ")"]
  | .negation t => Token.text "NOT " :: t.fragment text
  | .nullTest t negated => t.fragment text ++ [Token.text (if negated then " IS NOT NULL" else " IS NULL")]
  | .paren t => Fragment.parenthesized (t.fragment text)
  | .group head parts =>
    (head.headD []).map Token.text ++ weave (fragmentEach text parts) (head.tail.map fun run => run.map Token.text)
/-- What each of some trees is written as. -/
def fragmentEach (text : α → Fragment β) : List (Tree Head α) → List (Fragment β)
  | [] => []
  | t :: ts => t.fragment text :: fragmentEach text ts
end

theorem fragmentEach_eq_map (text : α → Fragment β) (ts : List (Tree Head α)) :
    fragmentEach text ts = ts.map (Tree.fragment text) := by
  induction ts with
  | nil => rfl
  | cons t ts ih => rw [fragmentEach, ih, List.map_cons]

theorem nil_weave {a : Type} (ks : List (List a)) : weave [] ks = ks.flatten := by
  simp [weave]

theorem weave_nil {a : Type} (ps : List (List a)) : weave ps [] = ps.flatten := by
  cases ps <;> simp [weave]

theorem flatMap_weave {a b : Type} (g : a → List b) (ps ks : List (List a)) :
    (weave ps ks).flatMap g = weave (ps.map (List.flatMap g)) (ks.map (List.flatMap g)) := by
  have hflat : ∀ l : List (List a), l.flatten.flatMap g = (l.map (List.flatMap g)).flatten := by
    intro l
    induction l with
    | nil => rfl
    | cons x l ih => simp [ih]
  induction ps generalizing ks with
  | nil => simp [weave, hflat]
  | cons p ps ih =>
    cases ks with
    | nil => simp [weave, hflat]
    | cons k ks => simp [weave, ih]

/-! ## Words -/

/-- The lexemes of a run of keywords. -/
def runLexemes (run : List String) : List Lexeme := run.flatMap textLexemes

/-- Whether a lexeme belongs to no other one. -/
def Lexeme.isLoose (x : Lexeme) : Bool := !x.isLetter && !x.isOperatorSign

/-- Lexemes that do not begin or end with the sign of an operator. -/
structure Operand (l : List Lexeme) : Prop where
  nonempty : l ≠ []
  head : ∀ x ∈ l.head?, x.isOperatorSign = false
  last : ∀ x ∈ l.getLast?, x.isOperatorSign = false

/-- Keywords in front of the first part. -/
structure Opening (closer : String) (run : List String) : Prop where
  head : ((runLexemes run).head?.any fun x => !x.isOperatorSign) = true
  last : (runLexemes run).getLast?.any Lexeme.isLoose = true
  words : opensGroup closer (words (runLexemes run)) = true

/-- Keywords between two parts. -/
structure Between (closer : String) (run : List String) : Prop where
  head : (runLexemes run).head?.any Lexeme.isLoose = true
  last : (runLexemes run).getLast?.any Lexeme.isLoose = true
  words : separatesParts (words (runLexemes run)) = true

/-- Keywords behind the last part. -/
structure Closing (closer : String) (run : List String) : Prop where
  head : (runLexemes run).head?.any Lexeme.isLoose = true
  last : ((runLexemes run).getLast?.any fun x => !x.isOperatorSign) = true
  words : words (runLexemes run) = [.plain closer]

/-- Keywords behind each of so many parts. -/
inductive Keywords (closer : String) : Head → Nat → Prop
  | last {run : List String} (h : Closing closer run) : Keywords closer [run] 1
  | next {run : List String} {rest : Head} {n : Nat} (h : Between closer run) (hrest : Keywords closer rest n) :
      Keywords closer (run :: rest) (n + 1)

/-- The trees that are written as expressions are. -/
inductive Tree.Laid : Tree Head α → Prop
  | leaf (a : α) : Tree.Laid (.leaf a)
  | operation (op : Operator) {left right : Tree Head α} (hl : left.Laid) (hr : right.Laid) :
      Tree.Laid (.operation op left right)
  | negation {t : Tree Head α} (h : t.Laid) : Tree.Laid (.negation (.paren t))
  | nullTest (negated : Bool) {t : Tree Head α} (h : t.Laid) : Tree.Laid (.nullTest t negated)
  | paren {t : Tree Head α} (h : t.Laid) : Tree.Laid (.paren t)
  | group {closer : String} {first : List String} {rest : Head} {parts : List (Tree Head α)}
      (hfirst : Opening closer first) (hrest : Keywords closer rest parts.length) (h : ∀ t ∈ parts, t.Laid) :
      Tree.Laid (.group (first :: rest) parts)

theorem words_operator (op : Operator) : words (textLexemes op.text) = [.plain op.symbol] := by
  rcases op with ⟨⟨op⟩ | _⟩ | ⟨⟨⟩⟩ | _
  · cases op <;> decide
  · decide
  · decide
  · decide
  · decide

/-- An operator does not begin or end with a letter. -/
theorem operator_edges (op : Operator) :
    ((textLexemes op.text).head?.any fun x => !x.isLetter) = true ∧
      ((textLexemes op.text).getLast?.any fun x => !x.isLetter) = true := by
  rcases op with ⟨⟨op⟩ | _⟩ | ⟨⟨⟩⟩ | _
  · cases op <;> decide
  · decide
  · decide
  · decide
  · decide

/-- Words end in front of a lexeme that belongs to no other one. -/
theorem words_append_of_loose {l l' : List Lexeme} (h : l'.head?.any Lexeme.isLoose = true) :
    words (l ++ l') = words l ++ words l' := by
  refine words_append fun x _ y hy => ?_
  rw [hy] at h
  have hloose : y.isLoose := h
  simp only [Lexeme.isLoose, Bool.and_eq_true, Bool.not_eq_true'] at hloose
  simp [Lexeme.joins, hloose]

/-- Words end behind a lexeme that belongs to no other one. -/
theorem words_loose_append {l l' : List Lexeme} (h : l.getLast?.any Lexeme.isLoose = true) :
    words (l ++ l') = words l ++ words l' := by
  refine words_append fun x hx y _ => ?_
  rw [hx] at h
  have hloose : x.isLoose := h
  simp only [Lexeme.isLoose, Bool.and_eq_true, Bool.not_eq_true'] at hloose
  simp [Lexeme.joins, hloose]

theorem Operand.append {l r : List Lexeme} (m : List Lexeme) (hl : Operand l) (hr : Operand r) :
    Operand (l ++ m ++ r) where
  nonempty := by simp [hl.nonempty]
  head := by
    rw [List.append_assoc, List.head?_append_of_ne_nil _ hl.nonempty]
    exact hl.head
  last := by
    rw [List.getLast?_append_of_ne_nil _ hr.nonempty]
    exact hr.last

/-- Lexemes between others. -/
theorem operand_of_edges {l m r : List Lexeme} (hl : (l.head?.any fun x => !x.isOperatorSign) = true)
    (hr : (r.getLast?.any fun x => !x.isOperatorSign) = true) : Operand (l ++ (m ++ r)) := by
  have hl' : l ≠ [] := by
    rintro rfl
    cases hl
  have hr' : m ++ r ≠ [] := by
    intro h
    rw [(List.append_eq_nil_iff.1 h).2] at hr
    cases hr
  refine ⟨by simp [hl'], fun x hx => ?_, fun x hx => ?_⟩
  · rw [List.head?_append_of_ne_nil _ hl'] at hx
    rw [hx] at hl
    simpa using hl
  · rw [List.getLast?_append_of_ne_nil _ hr', List.getLast?_append_of_ne_nil] at hx
    · rw [hx] at hr
      simpa using hr
    · rintro rfl
      cases hr

/-- An operator ends the word in front of it, and the one behind it is new. -/
theorem words_operation {l r : List Lexeme} (hl : Operand l) (hr : Operand r) (op : Operator) :
    words (l ++ (textLexemes op.text ++ r)) = words l ++ Word.plain op.symbol :: words r := by
  obtain ⟨hhead, hlast⟩ := operator_edges op
  rw [words_append, words_append, words_operator]
  · rfl
  · intro x hx y hy
    rw [hx] at hlast
    have hx : x.isLetter = false := by simpa using hlast
    simp [Lexeme.joins, hx, hr.head y hy]
  · intro x hx y hy
    have hne : textLexemes op.text ≠ [] := by
      intro h
      rw [h] at hhead
      cases hhead
    rw [List.head?_append_of_ne_nil _ hne] at hy
    rw [hy] at hhead
    have hy : y.isLetter = false := by simpa using hhead
    simp [Lexeme.joins, hy, hl.last x hx]

/-- The words of a run of keywords. -/
def runWords (run : List String) : List Word := words (runLexemes run)

/-- The parts of a group and the keywords behind them. -/
theorem Keywords.words_weave {closer : String} {rest : Head} {n : Nat} (h : Keywords closer rest n)
    (ls : List (List Lexeme)) (hn : ls.length = n) :
    words (weave ls (rest.map runLexemes)) = weave (ls.map words) (rest.map runWords) ∧
      ((weave ls (rest.map runLexemes)).getLast?.any fun x => !x.isOperatorSign) = true := by
  induction h generalizing ls with
  | @last run h =>
    obtain ⟨l, rfl⟩ := List.length_eq_one_iff.1 hn
    have hne : runLexemes run ≠ [] := by
      intro hnil
      have := h.head
      rw [hnil] at this
      cases this
    constructor
    · simp only [List.map_cons, List.map_nil, weave, List.flatten_nil, List.append_nil]
      exact words_append_of_loose h.head
    · simp only [List.map_cons, List.map_nil, weave, List.flatten_nil, List.append_nil,
        List.getLast?_append_of_ne_nil _ hne]
      exact h.last
  | @next run rest n h _ ih =>
    cases ls with
    | nil => cases hn
    | cons l ls =>
      obtain ⟨hwords, hlast⟩ := ih ls (Nat.succ.inj hn)
      have hne : weave ls (rest.map runLexemes) ≠ [] := by
        intro hnil
        rw [hnil] at hlast
        cases hlast
      constructor
      · have hhead : (runLexemes run ++ weave ls (rest.map runLexemes)).head?.any Lexeme.isLoose = true := by
          rw [List.head?_append_of_ne_nil]
          · exact h.head
          · intro hnil
            have := h.head
            rw [hnil] at this
            cases this
        simp only [List.map_cons, weave, List.append_assoc]
        rw [words_append_of_loose hhead, words_loose_append h.last, hwords]
        rfl
      · simp only [List.map_cons, weave]
        rw [List.getLast?_append_of_ne_nil _ hne]
        exact hlast

/-- The words of the keywords of a group. -/
def Head.words (head : Head) : List (List Word) := head.map runWords

/-- The keywords behind the parts of a group. -/
theorem Keywords.isHead {closer : String} {rest : Head} {n : Nat} (h : Keywords closer rest n)
    {head : List (List Word)} (hhead : IsHead closer head) :
    ∃ front, rest.words = front ++ [[Word.plain closer]] ∧ IsHead closer (head ++ front) ∧ front.length + 1 = n := by
  induction h generalizing head with
  | @last run h => exact ⟨[], congrArg (fun ws => [ws]) h.words, by simpa using hhead, rfl⟩
  | @next run rest n h _ ih =>
    obtain ⟨front, hwords, hfront, hlength⟩ := ih (hhead.separated h.words)
    refine ⟨runWords run :: front, ?_, by simpa [runWords] using hfront, by simp [hlength]⟩
    rw [Head.words, List.map_cons, List.cons_append, ← hwords]
    rfl

section Reading

variable (text : α → Fragment β) (x : β → List Lexeme)

/-- The lexemes of a tree. -/
def Tree.lexemes (t : Tree Head α) : List Lexeme := (t.fragment text).flatMap (Token.lexemes x)

/-- The tree in words. -/
def Tree.spelled (t : Tree Head α) : ReadTree :=
  t.map Head.words fun a => Sql.words ((text a).flatMap (Token.lexemes x))

/-- What is read from the text of a tree. -/
structure Tree.Falls (t : Tree Head α) : Prop where
  operand : Operand (t.lexemes text x)
  words_eq : Sql.words (t.lexemes text x) = (t.spelled text x).words
  formed : (t.spelled text x).Formed

variable {text x}

/-- **The text of a tree falls apart into its words.** -/
theorem Tree.Laid.falls {t : Tree Head α} (ht : t.Laid)
    (hleaf : ∀ a ∈ t.leaves, Tree.Falls text x (.leaf a)) : t.Falls text x := by
  induction ht with
  | leaf a => exact hleaf a (by simp [Tree.leaves])
  | @operation op l r _ _ ihl ihr =>
    have hl := ihl fun a ha => hleaf a (by simp [Tree.leaves, ha])
    have hr := ihr fun a ha => hleaf a (by simp [Tree.leaves, ha])
    have hlexemes : Tree.lexemes text x (.operation op l r) =
        l.lexemes text x ++ (textLexemes op.text ++ r.lexemes text x) := by
      simp [Tree.lexemes, Tree.fragment, Token.lexemes]
    refine ⟨?_, ?_, .operation op hl.formed hr.formed⟩
    · rw [hlexemes, ← List.append_assoc]
      exact hl.operand.append _ hr.operand
    · rw [hlexemes, words_operation hl.operand hr.operand, hl.words_eq, hr.words_eq]
      rfl
  | @negation t _ ih =>
    have h := ih hleaf
    have hlexemes : Tree.lexemes text x (.negation (.paren t)) =
        textLexemes "NOT (" ++ (t.lexemes text x ++ textLexemes ")") := by
      simp [Tree.lexemes, Tree.fragment, Token.lexemes]
    refine ⟨?_, ?_, .negation (.paren h.formed)⟩
    · rw [hlexemes]
      exact operand_of_edges (by decide) (by decide)
    · rw [hlexemes, words_loose_append (by decide), words_append_of_loose (by decide), h.words_eq]
      rfl
  | @nullTest negated t _ ih =>
    have h := ih hleaf
    have hlexemes : Tree.lexemes text x (.nullTest t negated) =
        t.lexemes text x ++ textLexemes (if negated then " IS NOT NULL" else " IS NULL") := by
      simp [Tree.lexemes, Tree.fragment, Token.lexemes]
    refine ⟨?_, ?_, .nullTest negated h.formed⟩
    · rw [hlexemes]
      refine ⟨by simp [h.operand.nonempty], ?_, ?_⟩
      · rw [List.head?_append_of_ne_nil _ h.operand.nonempty]
        exact h.operand.head
      · rw [List.getLast?_append_of_ne_nil _ (by cases negated <;> decide)]
        cases negated <;> decide
    · rw [hlexemes, words_append_of_loose (by cases negated <;> decide), h.words_eq]
      cases negated <;> rfl
  | @paren t _ ih =>
    have h := ih hleaf
    have hlexemes : Tree.lexemes text x (.paren t) = textLexemes "(" ++ (t.lexemes text x ++ textLexemes ")") := by
      simp [Tree.lexemes, Tree.fragment, Fragment.parenthesized, Token.lexemes]
    refine ⟨?_, ?_, .paren h.formed⟩
    · rw [hlexemes]
      exact operand_of_edges (by decide) (by decide)
    · rw [hlexemes, words_loose_append (by decide), words_append_of_loose (by decide), h.words_eq]
      rfl
  | @group closer first rest parts hfirst hrest _ ih =>
    have h : ∀ t ∈ parts, t.Falls text x := by
      intro t ht
      refine ih t ht fun a ha => hleaf a ?_
      rw [Tree.leaves, leavesEach_eq_flatMap]
      exact List.mem_flatMap.2 ⟨t, ht, ha⟩
    have hruns : ∀ run : List String, (run.map Token.text).flatMap (Token.lexemes x) = runLexemes run := by
      intro run
      rw [List.flatMap_map]
      rfl
    have hlexemes : Tree.lexemes text x (.group (first :: rest) parts) =
        runLexemes first ++ weave (parts.map (Tree.lexemes text x)) (rest.map runLexemes) := by
      simp only [Tree.lexemes, Tree.fragment, fragmentEach_eq_map, List.headD_cons, List.tail_cons,
        List.flatMap_append, hruns, flatMap_weave, List.map_map, Function.comp_def]
      rfl
    obtain ⟨hwords, hlast⟩ := hrest.words_weave (parts.map (Tree.lexemes text x)) (by simp)
    have hspelled : Tree.spelled text x (.group (first :: rest) parts) =
        .group (runWords first :: rest.map runWords) (parts.map (Tree.spelled text x)) := by
      rw [Tree.spelled, Tree.map, mapEach_eq_map]
      rfl
    refine ⟨?_, ?_, ?_⟩
    · rw [hlexemes, ← List.nil_append (weave _ _)]
      exact operand_of_edges hfirst.head hlast
    · rw [hlexemes, words_loose_append hfirst.last, hwords, hspelled, Tree.words, wordsEach_eq_map, List.map_map,
        List.map_map]
      refine congrArg (runWords first ++ ·) (congrArg (weave · _) (List.map_congr_left fun t ht => ?_))
      exact (h t ht).words_eq
    · obtain ⟨front, hfront, hhead, hlength⟩ := hrest.isHead (isHead_of_opensGroup hfirst.words)
      have hheads : runWords first :: rest.map runWords = ([runWords first] ++ front) ++ [[Word.plain closer]] := by
        rw [List.append_assoc, ← hfront]
        rfl
      rw [hspelled, hheads]
      refine .group hhead (by simpa using hlength) fun u hu => ?_
      obtain ⟨t, ht, rfl⟩ := List.mem_map.1 hu
      exact (h t ht).formed

end Reading

/-! ## Slots -/

section Lifting

variable {g : β → γ}

/-- The texts at the head of a fragment whose slots were changed. -/
theorem eq_texts_append {F : Fragment β} (run : List String) {rest : Fragment γ}
    (h : F.map (Token.map g) = run.map Token.text ++ rest) :
    ∃ F', F = run.map Token.text ++ F' ∧ F'.map (Token.map g) = rest := by
  induction run generalizing F with
  | nil => exact ⟨F, rfl, h⟩
  | cons s run ih =>
    cases F with
    | nil => simp at h
    | cons t F =>
      simp only [List.map_cons, List.cons_append, List.cons.injEq] at h
      obtain ⟨F', rfl, hF'⟩ := ih h.2
      refine ⟨F', ?_, hF'⟩
      cases t with
      | text s' =>
        have hs : s' = s := by simpa [Token.map] using h.1
        simp [hs]
      | name s' | key s' | slot b => simp [Token.map] at h

/-- The texts at the end of a fragment whose slots were changed. -/
theorem eq_append_texts {F : Fragment β} {rest : Fragment γ} (run : List String)
    (h : F.map (Token.map g) = rest ++ run.map Token.text) :
    ∃ F', F = F' ++ run.map Token.text ∧ F'.map (Token.map g) = rest := by
  obtain ⟨L, R, rfl, hL, hR⟩ := List.map_eq_append_iff.1 h
  obtain ⟨E, rfl, hE⟩ := eq_texts_append run (hR.trans (List.append_nil _).symm)
  rw [List.map_eq_nil_iff.1 hE, List.append_nil]
  exact ⟨L, rfl, hL⟩

/-- The fragments between the keywords of one whose slots were changed. -/
theorem eq_weave {F : Fragment β} (ps : List (Fragment γ)) (ks : Head)
    (h : F.map (Token.map g) = weave ps (ks.map fun run => run.map .text)) :
    ∃ qs : List (Fragment β), F = weave qs (ks.map fun run => run.map .text) ∧
      qs.map (List.map (Token.map g)) = ps := by
  induction ps generalizing F ks with
  | nil =>
    rw [nil_weave, ← List.map_flatten] at h
    obtain ⟨F', rfl, hF'⟩ := eq_append_texts ks.flatten (h.trans (List.nil_append _).symm)
    rw [List.map_eq_nil_iff.1 hF', List.nil_append, List.map_flatten]
    exact ⟨[], (nil_weave _).symm, rfl⟩
  | cons p ps ih =>
    cases ks with
    | nil =>
      rw [List.map_nil, weave_nil, List.flatten_cons] at h
      obtain ⟨L, R, rfl, rfl, hR⟩ := List.map_eq_append_iff.1 h
      obtain ⟨qs, rfl, rfl⟩ := ih [] (hR.trans (weave_nil ps).symm)
      exact ⟨L :: qs, by simp [weave_nil], rfl⟩
    | cons run ks =>
      rw [List.map_cons, weave, List.append_assoc] at h
      obtain ⟨L, R, rfl, rfl, hR⟩ := List.map_eq_append_iff.1 h
      obtain ⟨R, rfl, hR'⟩ := eq_texts_append run hR
      obtain ⟨qs, rfl, rfl⟩ := ih ks hR'
      exact ⟨L :: qs, by simp [weave], rfl⟩

/-- A tree of tokens whose slots were changed comes from one of tokens with the
slots that there were. -/
theorem Tree.Laid.exists_lift {t : Tree Head (α × Fragment γ)} (ht : t.Laid) {F : Fragment β}
    (h : F.map (Token.map g) = t.fragment Prod.snd) :
    ∃ u : Tree Head (α × Fragment β), u.Laid ∧ u.map id (fun p => (p.1, p.2.map (Token.map g))) = t ∧
      u.fragment Prod.snd = F := by
  induction ht generalizing F with
  | leaf a =>
    have h : F.map (Token.map g) = a.2 := h
    exact ⟨.leaf (a.1, F), .leaf _, by rw [Tree.map, h], rfl⟩
  | @operation op l r _ _ ihl ihr =>
    obtain ⟨L, R', rfl, hL, hR'⟩ := List.map_eq_append_iff.1 h
    obtain ⟨R, rfl, hR⟩ := eq_texts_append [op.text] hR'
    obtain ⟨ul, hul, rfl, rfl⟩ := ihl hL
    obtain ⟨ur, hur, rfl, rfl⟩ := ihr hR
    exact ⟨.operation op ul ur, .operation op hul hur, rfl, rfl⟩
  | @negation t _ ih =>
    obtain ⟨R, rfl, hR⟩ := eq_texts_append ["NOT ("] h
    obtain ⟨L, rfl, hL⟩ := eq_append_texts [")"] hR
    obtain ⟨u, hu, rfl, rfl⟩ := ih hL
    exact ⟨.negation (.paren u), .negation hu, rfl, rfl⟩
  | @nullTest negated t _ ih =>
    obtain ⟨L, rfl, hL⟩ := eq_append_texts [if negated then " IS NOT NULL" else " IS NULL"] h
    obtain ⟨u, hu, rfl, rfl⟩ := ih hL
    exact ⟨.nullTest u negated, .nullTest negated hu, rfl, rfl⟩
  | @paren t _ ih =>
    obtain ⟨R, rfl, hR⟩ := eq_texts_append ["("] h
    obtain ⟨L, rfl, hL⟩ := eq_append_texts [")"] hR
    obtain ⟨u, hu, rfl, rfl⟩ := ih hL
    exact ⟨.paren u, .paren hu, rfl, rfl⟩
  | @group closer first rest parts hfirst hrest hlaid ih =>
    rw [Tree.fragment, fragmentEach_eq_map] at h
    obtain ⟨R, rfl, hR⟩ := eq_texts_append first h
    obtain ⟨qs, rfl, hqs⟩ := eq_weave _ rest hR
    have hparts : ∃ us : List (Tree Head (α × Fragment β)), (∀ u ∈ us, u.Laid) ∧
        us.map (Tree.map id fun p => (p.1, p.2.map (Token.map g))) = parts ∧
        us.map (Tree.fragment Prod.snd) = qs := by
      clear hlaid hrest h hR
      induction parts generalizing qs with
      | nil => exact ⟨[], by simp, rfl, (List.map_eq_nil_iff.1 hqs).symm⟩
      | cons t parts ihparts =>
        cases qs with
        | nil => cases hqs
        | cons q qs =>
          rw [List.map_cons, List.map_cons, List.cons.injEq] at hqs
          obtain ⟨u, hu, rfl, rfl⟩ := ih t List.mem_cons_self hqs.1
          obtain ⟨us, hus, rfl, rfl⟩ := ihparts (fun t ht => ih t (List.mem_cons_of_mem _ ht)) qs hqs.2
          exact ⟨u :: us, by simpa using ⟨hu, hus⟩, rfl, rfl⟩
    obtain ⟨us, hus, rfl, rfl⟩ := hparts
    refine ⟨.group (first :: rest) us, .group hfirst (by simpa using hrest) hus, ?_, ?_⟩
    · rw [Tree.map, mapEach_eq_map]
      rfl
    · rw [Tree.fragment, fragmentEach_eq_map]
      rfl

end Lifting

end ParamQuery.Sql
