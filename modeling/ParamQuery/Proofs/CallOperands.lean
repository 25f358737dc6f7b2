/-
The operands of calls that are written with operators: comparisons with a value
or a pattern, and `SUBSTRING`, whose start is counted from one. The texts of the
operands are put into the template of the call as they are; those of plain
operands are phrases.

`compile_call_operands`: an operand stays one operand if it binds strongly enough
at the edges that it turns to the operators of the template
(`Method.keepsWhole`), and not otherwise. A bitwise operation as the start of a
substring does not (`maskedStart_regrouped`).
-/
import ParamQuery.Proofs.Grouping

namespace ParamQuery.Sql

variable {T : Precedence}

/-! ## The last word of a phrase -/

/-- Whether the last character of a word is one that operators are made of. -/
def Word.endsInSign : Word → Bool
  | .plain s => s.toList.getLast?.any isOperatorSign
  | _ => false

theorem isOperatorSign_of_isDigit {c : Char} (h : c.isDigit) : isOperatorSign c = false := by
  have hsigns : ∀ c ∈ "+-*/<>=~!@#%^&|?".toList, c.isDigit = false := by simp
  rw [isOperatorSign, List.contains_eq_mem, decide_eq_false_iff_not]
  intro hc
  rw [hsigns c hc] at h
  cases h

theorem IsOperand.last {ws : List Word} (h : IsOperand ws) : ∃ w, ws.getLast? = some w ∧ w.endsInSign = false := by
  cases h with
  | quoted | parameter => exact ⟨_, rfl, rfl⟩
  | @number s h =>
    refine ⟨.plain s, rfl, ?_⟩
    rw [isNumber, Bool.and_eq_true, List.all_eq_true] at h
    cases hlast : s.toList.getLast? with
    | none => simp [Word.endsInSign, hlast]
    | some c => simpa [Word.endsInSign, hlast] using isOperatorSign_of_isDigit (h.2 c (List.mem_of_getLast? hlast))
  | statement h => exact ⟨.plain ")", List.getLast?_concat, by decide⟩
  | field h quote content => exact ⟨.quoted quote content, by simp, rfl⟩

/-- A phrase does not end in the sign of an operator. -/
theorem Tree.IsPhrase.last {t : ReadTree} (h : t.IsPhrase T) :
    ∃ w, t.words.getLast? = some w ∧ w.endsInSign = false := by
  induction h with
  | leaf h => exact h.last
  | operation _ _ _ _ _ ih =>
    obtain ⟨w, hlast, hw⟩ := ih
    exact ⟨w, by simp [Tree.words, List.getLast?_append, List.getLast?_cons, hlast], hw⟩
  | negation _ _ ih =>
    obtain ⟨w, hlast, hw⟩ := ih
    exact ⟨w, by simp [Tree.words, List.getLast?_cons, hlast], hw⟩
  | nullTest negated =>
    refine ⟨.plain "NULL", ?_, by decide⟩
    cases negated <;> simp [Tree.words, List.getLast?_append]
  | paren => exact ⟨.plain ")", List.getLast?_concat, by decide⟩
  | @group closer head parts hhead hlength _ _ =>
    obtain ⟨ts, t, rfl, hcount⟩ := hhead.exists_concat hlength
    refine ⟨.plain closer, ?_, ?_⟩
    · rw [words_group, groupWords_part hcount]
      exact List.getLast?_concat
    · rcases hhead.closer_eq with rfl | rfl <;> decide

/-- Lexemes that end in the sign of an operator have such a last word. -/
theorem getLast?_words {l : List Lexeme} {x : Lexeme} (hx : l.getLast? = some x) (hsign : x.isOperatorSign) :
    ∃ w, (words l).getLast? = some w ∧ w.endsInSign := by
  induction l with
  | nil => cases hx
  | cons y l ih =>
    cases l with
    | nil =>
      obtain rfl : y = x := by simpa using hx
      cases y with
      | char c =>
        have hblank : c ≠ ' ' := by
          rintro rfl
          exact absurd hsign (by decide)
        refine ⟨.plain (String.ofList [c]), ?_, by simpa [Word.endsInSign, Lexeme.isOperatorSign] using hsign⟩
        simp [words, Lexeme.words_char hblank]
      | quoted | parameter => cases hsign
    | cons z l =>
      obtain ⟨w, hlast, hw⟩ := ih (by simpa using hx)
      rw [words_cons_cons]
      split
      · rename_i hjoins
        obtain ⟨c, d, s, ws, rfl, rfl, hwords, -⟩ := words_of_joins hjoins l
        rw [hwords] at hlast ⊢
        cases ws with
        | nil =>
          cases hlast
          refine ⟨.plain (String.ofList (c :: s.toList)), rfl, ?_⟩
          simp only [Word.endsInSign, String.toList_ofList, List.getLast?_cons] at hw ⊢
          cases hs : s.toList.getLast? with
          | none => simp [hs] at hw
          | some c' => simpa [hs] using hw
        | cons w' ws => exact ⟨w, by simpa [Lexeme.prolong] using hlast, hw⟩
      · exact ⟨w, by simp [List.getLast?_append, hlast], hw⟩

theorem Tree.IsPhrase.last_lexeme {t : ReadTree} (h : t.IsPhrase T) {l : List Lexeme}
    (hl : Sql.words l = t.words) : ∀ x ∈ l.getLast?, x.isOperatorSign = false := by
  intro x hx
  cases hsign : x.isOperatorSign with
  | false => rfl
  | true =>
    obtain ⟨w, hlast, hw⟩ := getLast?_words hx hsign
    obtain ⟨w', hlast', hw'⟩ := h.last
    rw [hl, hlast'] at hlast
    cases hlast
    rw [hw'] at hw
    cases hw

/-! ## Words of spliced texts -/

/-- Words end at a text that begins and ends with a blank. -/
theorem words_between {m : List Lexeme} (hhead : m.head?.any Lexeme.isLoose = true)
    (hlast : m.getLast?.any Lexeme.isLoose = true) (l r : List Lexeme) :
    words (l ++ (m ++ r)) = words l ++ (words m ++ words r) := by
  have hne : m ≠ [] := by
    rintro rfl
    cases hhead
  rw [words_append_of_loose, words_loose_append hlast]
  rwa [List.head?_append_of_ne_nil _ hne]

/-- Words end at a text that begins with the sign of an operator, behind anything
that does not end in one. -/
theorem words_append_sign {l m : List Lexeme} (hl : ∀ x ∈ l.getLast?, x.isOperatorSign = false)
    (hm : (m.head?.any fun x => !x.isLetter) = true) : words (l ++ m) = words l ++ words m := by
  refine words_append fun x hx y hy => ?_
  rw [hy] at hm
  have hy : y.isLetter = false := by simpa using hm
  simp [Lexeme.joins, hy, hl x hx]

end ParamQuery.Sql

namespace ParamQuery

open Sql

/-! ## Templates with operators -/

namespace Method

/-- Whether the operands of a call stand beside operators. -/
def isSpliced (m : Method) : Bool := m.isPredicate || m == .substring

/-- The operator of an equality. -/
def equality : Operator := .binary (.operator .equal)

/-- The operator that puts texts together. -/
def concatenation : Operator := .binary .concat

/-- The operator of a sum. -/
def addition : Operator := .binary (.operator .add)

/-- The wildcard of a pattern. -/
def wildcard : ReadTree := .leaf [.quoted '\'' "%"]

/-- The structure of a call, with its operands in their places. -/
def phrase? (m : Method) (receiver : ReadTree) (arguments : List ReadTree) : Option ReadTree :=
  match m, arguments with
  | .equals, [a] => some (.operation equality receiver a)
  | .contains, [a] =>
    some (.operation .like receiver (.operation concatenation (.operation concatenation wildcard a) wildcard))
  | .startsWith, [a] => some (.operation .like receiver (.operation concatenation a wildcard))
  | .endsWith, [a] => some (.operation .like receiver (.operation concatenation wildcard a))
  | .substring, [a] =>
    some (.group [[.plain "SUBSTRING", .plain "("], [.plain "FROM"], [.plain ")"]]
      [receiver, .operation addition a (.leaf [.plain "1"])])
  | .substring, [a, b] =>
    some (.group [[.plain "SUBSTRING", .plain "("], [.plain "FROM"], [.plain "FOR"], [.plain ")"]]
      [receiver, .operation addition a (.leaf [.plain "1"]), b])
  | _, _ => none

/-- Whether the operands of a call bind strongly enough for their places. -/
def keepsWhole (m : Method) (receiver : ReadTree) (arguments : List ReadTree) : Bool :=
  match m, arguments with
  | .equals, [a] => equality.rank < receiver.rightEdge .ranks && equality.rank < a.leftEdge .ranks
  | .contains, [a] =>
    Operator.like.rank < receiver.rightEdge .ranks && concatenation.rank < a.leftEdge .ranks &&
      concatenation.rank ≤ a.rightEdge .ranks
  | .startsWith, [a] =>
    Operator.like.rank < receiver.rightEdge .ranks && concatenation.rank ≤ a.rightEdge .ranks &&
      Operator.like.rank < a.leftEdge .ranks
  | .endsWith, [a] => Operator.like.rank < receiver.rightEdge .ranks && concatenation.rank < a.leftEdge .ranks
  | .substring, a :: _ => addition.rank ≤ a.rightEdge .ranks
  | _, _ => false

theorem exists_phrase (m : Method) (h : m.isSpliced) (receiver : ReadTree) {arguments : List ReadTree}
    (haccepts : m.accepts arguments.length) : ∃ t, m.phrase? receiver arguments = some t := by
  obtain ⟨hleast, hmost⟩ := Method.accepts_iff.1 haccepts
  cases m with
  | equals | contains | startsWith | endsWith =>
    obtain ⟨a, rfl⟩ := List.length_eq_one_iff.1 (le_antisymm (hmost 1 rfl) hleast)
    exact ⟨_, rfl⟩
  | substring =>
    cases arguments with
    | nil => cases hleast
    | cons a arguments =>
      cases arguments with
      | nil => exact ⟨_, rfl⟩
      | cons b arguments =>
        obtain rfl : arguments = [] := by simpa using hmost 2 rfl
        exact ⟨_, rfl⟩
  | toLower | toUpper | reverse | length | concat | replace | trim | trimStart | trimEnd => cases h

end Method

theorem Sql.Tree.isPhrase_operation {T : Precedence} {op : Operator} {l r : ReadTree} :
    Tree.IsPhrase T (.operation op l r) ↔
      (l.IsPhrase T ∧ T.StopsAt (T.operator op) (l.rightEdge T)) ∧ r.IsPhrase T ∧ T.operator op < r.leftEdge T := by
  constructor
  · intro h
    cases h with
    | operation hl hr hleft hright => exact ⟨⟨hl, hleft⟩, hr, hright⟩
  · rintro ⟨⟨hl, hleft⟩, hr, hright⟩
    exact .operation hl hr hleft hright

theorem Sql.Tree.IsPhrase.parts {T : Precedence} {head : List (List Word)} {parts : List ReadTree}
    (h : Tree.IsPhrase T (.group head parts)) : ∀ t ∈ parts, t.IsPhrase T := by
  generalize hg : Tree.group head parts = g at h
  cases h with
  | group _ _ h =>
    cases hg
    exact h
  | leaf | operation | negation | nullTest | paren => cases hg

/-- The keywords of `SUBSTRING`. -/
theorem isHead_substring : IsHead ")" [[.plain "SUBSTRING", .plain "("], [.plain "FROM"]] :=
  .part (.call (by decide)) (by decide)

/-- The structure of a call is a phrase if, and only if, its operands keep
whole. -/
theorem Method.isPhrase_iff {m : Method} {receiver t : ReadTree} {arguments : List ReadTree}
    (ht : m.phrase? receiver arguments = some t) (hr : receiver.IsPhrase .ranks)
    (ha : ∀ a ∈ arguments, a.IsPhrase .ranks) : t.IsPhrase .ranks ↔ m.keepsWhole receiver arguments := by
  have hwildcard : wildcard.IsPhrase .ranks := .leaf (.quoted _ _)
  have hone : Tree.IsPhrase .ranks (.leaf [.plain "1"]) := .leaf (.number (by decide))
  have hrank : ∀ op, Precedence.ranks.operator op = op.rank := fun _ => rfl
  have hequality : ∀ edge, Precedence.ranks.StopsAt equality.rank edge ↔ equality.rank < edge := fun _ =>
    stopsAt_of_not_chains rfl
  have hlike : ∀ edge, Precedence.ranks.StopsAt Operator.like.rank edge ↔ Operator.like.rank < edge := fun _ =>
    stopsAt_of_not_chains rfl
  have hconcat : ∀ edge, Precedence.ranks.StopsAt concatenation.rank edge ↔ concatenation.rank ≤ edge := fun _ =>
    stopsAt_of_chains rfl
  have haddition : ∀ edge, Precedence.ranks.StopsAt addition.rank edge ↔ addition.rank ≤ edge := fun _ =>
    stopsAt_of_chains rfl
  have hsum : ∀ a : ReadTree, a.IsPhrase .ranks →
      (Tree.IsPhrase .ranks (.operation addition a (.leaf [.plain "1"])) ↔ addition.rank ≤ a.rightEdge .ranks) := by
    intro a ha
    rw [Tree.isPhrase_operation, hrank, haddition]
    exact ⟨fun h => h.1.2, fun h => ⟨⟨ha, h⟩, hone, by decide⟩⟩
  have hranks : concatenation.rank < Precedence.ranks.atom ∧ Operator.like.rank < concatenation.rank := by decide
  have hedges : wildcard.leftEdge .ranks = Precedence.ranks.atom ∧
      wildcard.rightEdge .ranks = Precedence.ranks.atom := ⟨rfl, rfl⟩
  unfold Method.phrase? at ht
  split at ht <;> cases ht
  · rename_i a
    simp [Method.keepsWhole, Tree.isPhrase_operation, hrank, hequality, hr, ha a]
  · rename_i a
    simp [Method.keepsWhole, Tree.isPhrase_operation, Tree.leftEdge, Tree.rightEdge, hrank, hlike, hconcat, hr, ha a,
      hwildcard, hedges, hranks, hranks.1.le, and_assoc]
  · rename_i a
    simp [Method.keepsWhole, Tree.isPhrase_operation, Tree.leftEdge, hrank, hlike, hconcat, hr, ha a,
      hwildcard, hedges, hranks, and_assoc]
  · rename_i a
    simp [Method.keepsWhole, Tree.isPhrase_operation, Tree.leftEdge, hrank, hlike, hconcat, hr, ha a,
      hwildcard, hedges, hranks, hranks.1.le]
  · rename_i a
    rw [Method.keepsWhole, decide_eq_true_eq, ← hsum a (ha a (by simp))]
    exact ⟨fun h => h.parts _ (by simp), fun h => .group isHead_substring rfl (by simp [hr, h])⟩
  · rename_i a b
    rw [Method.keepsWhole, decide_eq_true_eq, ← hsum a (ha a (by simp))]
    exact ⟨fun h => h.parts _ (by simp),
      fun h => .group (.part isHead_substring (by decide)) rfl (by simp [hr, h, ha b])⟩

/-- The layout of a call has the words of its structure, if the operands have the
words of theirs. -/
theorem Method.words_layout {m : Method} {receiver t : ReadTree} {arguments : List ReadTree}
    (ht : m.phrase? receiver arguments = some t) (ha : ∀ a ∈ arguments, a.IsPhrase .ranks) {l : List Lexeme}
    {ls : List (List Lexeme)} (hl : words l = receiver.words) (hls : ls.map words = arguments.map Tree.words) :
    words ((m.layout ls.length).flatMap (Token.lexemes fun i => (l :: ls).getD i [])) = t.words := by
  have hwildcard : wildcard.words = [.quoted '\'' "%"] := rfl
  have hlike : words (textLexemes " LIKE ") = [.plain Operator.like.symbol] := by decide
  have hopened : words (textLexemes " LIKE '%' || ") =
      [.plain Operator.like.symbol, .quoted '\'' "%", .plain concatenation.symbol] := by decide
  have hclosed : words (textLexemes " || '%'") = [.plain concatenation.symbol, .quoted '\'' "%"] := by decide
  have hstart : words (textLexemes "SUBSTRING(") = [.plain "SUBSTRING", .plain "("] := by decide
  have hfrom : words (textLexemes " FROM ") = [.plain "FROM"] := by decide
  unfold Method.phrase? at ht
  split at ht <;> cases ht
  · rename_i a
    obtain ⟨k, rfl, hk⟩ := List.map_eq_singleton_iff.1 hls
    have hlexemes : (Method.layout .equals 1).flatMap (Token.lexemes fun i => [l, k].getD i []) =
        l ++ (textLexemes " = " ++ k) := by simp [Method.layout, Token.lexemes]
    rw [List.length_singleton, hlexemes, words_between (by decide) (by decide), hl, hk]
    rfl
  · rename_i a
    obtain ⟨k, rfl, hk⟩ := List.map_eq_singleton_iff.1 hls
    have hlexemes : (Method.layout .contains 1).flatMap (Token.lexemes fun i => [l, k].getD i []) =
        l ++ (textLexemes " LIKE '%' || " ++ (k ++ textLexemes " || '%'")) := by simp [Method.layout, Token.lexemes]
    rw [List.length_singleton, hlexemes, words_between (by decide) (by decide), words_append_of_loose (by decide)]
    simp [Tree.words, hl, hk, hopened, hclosed, hwildcard]
  · rename_i a
    obtain ⟨k, rfl, hk⟩ := List.map_eq_singleton_iff.1 hls
    have hlexemes : (Method.layout .startsWith 1).flatMap (Token.lexemes fun i => [l, k].getD i []) =
        l ++ (textLexemes " LIKE " ++ (k ++ textLexemes " || '%'")) := by simp [Method.layout, Token.lexemes]
    rw [List.length_singleton, hlexemes, words_between (by decide) (by decide), words_append_of_loose (by decide)]
    simp [Tree.words, hl, hk, hlike, hclosed, hwildcard]
  · rename_i a
    obtain ⟨k, rfl, hk⟩ := List.map_eq_singleton_iff.1 hls
    have hlexemes : (Method.layout .endsWith 1).flatMap (Token.lexemes fun i => [l, k].getD i []) =
        l ++ (textLexemes " LIKE '%' || " ++ k) := by simp [Method.layout, Token.lexemes]
    rw [List.length_singleton, hlexemes, words_between (by decide) (by decide)]
    simp [Tree.words, hl, hk, hopened, hwildcard]
  · rename_i a
    obtain ⟨k, rfl, hk⟩ := List.map_eq_singleton_iff.1 hls
    have hlexemes : (Method.layout .substring 1).flatMap (Token.lexemes fun i => [l, k].getD i []) =
        textLexemes "SUBSTRING(" ++ (l ++ (textLexemes " FROM " ++ (k ++ textLexemes "+1)"))) := by
      simp [Method.layout, Token.lexemes]
    have hend : words (textLexemes "+1)") = [.plain addition.symbol, .plain "1", .plain ")"] := by decide
    rw [List.length_singleton, hlexemes, words_loose_append (by decide), words_between (by decide) (by decide),
      words_append_sign ((ha a (by simp)).last_lexeme hk) (by decide), words_group]
    simp [groupWords, weave, Tree.words, hl, hk, hstart, hfrom, hend]
  · rename_i a b
    obtain ⟨k, ks, rfl, hk, hks⟩ := List.map_eq_cons_iff.1 hls
    obtain ⟨k', rfl, hk'⟩ := List.map_eq_singleton_iff.1 hks
    have hlexemes : (Method.layout .substring 2).flatMap (Token.lexemes fun i => [l, k, k'].getD i []) =
        textLexemes "SUBSTRING(" ++ (l ++ (textLexemes " FROM " ++ (k ++ (textLexemes "+1 FOR " ++
          (k' ++ textLexemes ")"))))) := by
      simp [Method.layout, Token.lexemes]
    have hfor : words (textLexemes "+1 FOR ") = [.plain addition.symbol, .plain "1", .plain "FOR"] := by decide
    have hend : words (textLexemes ")") = [.plain ")"] := by decide
    rw [List.length_cons, List.length_singleton, hlexemes, words_loose_append (by decide),
      words_between (by decide) (by decide), words_append_sign ((ha a (by simp)).last_lexeme hk) (by rfl),
      words_loose_append (by decide), words_append_of_loose (by decide), words_group]
    simp [groupWords, weave, Tree.words, hl, hk, hk', hstart, hfrom, hfor, hend]

/-! ## Texts of calls -/

/-- A template is written with the texts of its fragments. -/
theorem Sql.Template.render_expand (t : Template) (fs : List (Fragment String)) :
    Fragment.render (t.expand (fun cs => [.text (String.ofList cs)]) fs) = t.render (fs.map Fragment.render) := by
  rw [Template.render, Template.expand, Template.expand]
  induction t.parts with
  | nil => rfl
  | cons p ps ih =>
    rw [List.flatMap_cons, List.flatMap_cons, Fragment.render_append, String.ofList_append, ih]
    congr 1
    cases p with
    | text cs => simp [Token.render]
    | slot i =>
      cases i with
      | none => rfl
      | some i =>
        simp only [List.getD_eq_getElem?_getD, List.getElem?_map]
        cases fs[i]? <;> simp

theorem Sql.Term.render_call (template : Template) (us : List (Term String)) :
    (Term.call template us).render = template.render (us.map Term.render) := by
  rw [Term.render, Term.fragment, termFragments_eq_map, Template.render_expand, List.map_map]
  rfl

theorem Sql.Term.eq_call_of_map {β γ : Type} {f : β → γ} {u : Term β} {template : Template} {args : List (Term γ)}
    (h : u.map f = .call template args) : ∃ us, u = .call template us ∧ us.map (Term.map f) = args := by
  cases u with
  | call template' us =>
    rw [Term.map_call, Term.call.injEq] at h
    obtain ⟨rfl, h⟩ := h
    exact ⟨us, rfl, h⟩
  | _ => simp at h

theorem Sql.Term.Built.operands {β : Type} {ok : Method → Nat → Nat → Prop} {S : β → Prop} {template : Template}
    {us : List (Term β)} (h : (Term.call template us).Built ok S) : ∀ u ∈ us, u.Built ok S := by
  cases h with
  | call _ h => exact h

theorem Sql.Term.slots_operand {β : Type} {template : Template} {us : List (Term β)} {u : Term β} (h : u ∈ us) :
    u.slots ⊆ (Term.call template us).slots := by
  intro p hp
  rw [Term.slots, termSlots_eq_flatMap]
  exact List.mem_flatMap.2 ⟨u, h, hp⟩

/-- The lexemes of a call are those of its layout. -/
theorem lexemes_call {β : Type} (method : Method) (us : List (Term β)) (n : Nat) (x : β → List Lexeme) :
    (Term.call (.ofMethod method n) us).fragment.flatMap (Token.lexemes x) =
      (method.layout n).flatMap (Token.lexemes fun i =>
        (us.map fun u => u.fragment.flatMap (Token.lexemes x)).getD i []) := by
  rw [fragment_call, lexemes_splice]
  refine congrArg (List.flatMap · _) (congrArg Token.lexemes (funext fun i => ?_))
  simp only [List.getD_eq_getElem?_getD, List.getElem?_map]
  cases us[i]? <;> rfl

/-- Reading several texts. -/
theorem readWords_each {T : Precedence} {wss : List (List Word)} {xs : List ReadTree}
    (h : wss.map (readWords T) = xs.map some) : wss = xs.map Tree.words ∧ ∀ x ∈ xs, x.IsPhrase T := by
  induction xs generalizing wss with
  | nil =>
    obtain rfl := List.map_eq_nil_iff.1 h
    exact ⟨rfl, nofun⟩
  | cons x xs ih =>
    obtain ⟨ws, wss, rfl, hx, hxs⟩ := List.map_eq_cons_iff.1 h
    obtain ⟨hphrase, rfl⟩ := readWords_iff.1 hx
    obtain ⟨rfl, hphrases⟩ := ih hxs
    exact ⟨rfl, by simpa using ⟨hphrase, hphrases⟩⟩

/-- The text of an expression as an operand, once a run has given its slots their
texts. -/
def Expr.TextIn (sc : Scope) (run : List (Slot × String)) (beside : Bool) (e : Expr) (text : String) : Prop :=
  ∃ u : Term (Slot × String), u.map Prod.fst = (e.emit sc {} beside).term ∧ u.slots ⊆ run ∧
    text = (u.map Prod.snd).render

/-- An operand with its text, which is read as a phrase if the operand is plain. -/
structure Expr.SplicedAs (sc : Scope) (run : List (Slot × String)) (beside : Bool) (e : Expr) (text : String) :
    Prop where
  written : e.TextIn sc run beside text
  reading : e.Plain → ∃ x, readPhrase text = some x ∧ e.ReadsAs sc run x

/-- A filled operand has its text, whatever else the run has filled. -/
theorem Expr.splicedAs_of_emit {sc : Scope} {run : List (Slot × String)} {spell : Slot × String → Fragment String}
    {beside : Bool} {e : Expr} {u : Term (Slot × String)} (hu : u.map Prod.fst = (e.emit sc {} beside).term)
    (hbuilt : u.Built (fun _ _ _ => True) fun p => p.1.Takes Filter.Named) (hrun : u.slots ⊆ run)
    (haccepted : ∀ p ∈ run, p.1.isAccepted) (hspell : ∀ p ∈ run, Spelled p (spell p)) :
    e.SplicedAs sc run beside (u.map Prod.snd).render where
  written := ⟨u, hu, hrun, rfl⟩
  reading hplain := by
    obtain ⟨x, hx, -, hreads⟩ := hplain.reading hu hbuilt hrun haccepted hspell
    exact ⟨x, hx, hreads⟩

theorem Expr.term_spliced {method : Method} (h : method.isSpliced) (receiver : Expr) (arguments : List Expr)
    (sc : Scope) : ((Expr.call method (some receiver) arguments).emit sc {} false).term =
      .call (.ofMethod method arguments.length) ((receiver.emit sc {} false).term ::
        arguments.map fun a => (a.emit sc {}
          (method.comparesWithReceiver && (receiver.emit sc {} false).jsonText)).term) := by
  have hconcat : method ≠ .concat := by
    rintro rfl
    cases h
  simp only [Expr.emit, hconcat, if_false, emitOption]
  rw [emitEach_eq_map]
  rfl

/-- A call is made of the operands that its method accepts. -/
theorem Expr.callOf_eq_ok {method : Method} {receiver : Option Expr} {arguments : List Expr} {e : Expr}
    (h : Expr.callOf method receiver arguments = .ok e) :
    method.accepts arguments.length ∧ e = .call method receiver arguments := by
  unfold Expr.callOf at h
  split at h
  · cases h
  split at h
  · cases h
  split at h
  · rename_i haccepts
    cases h
    exact ⟨haccepts, rfl⟩
  · cases h

/-- The texts of several operands. -/
theorem Expr.forall₂_emit {sc : Scope} {beside : Bool} {R : Expr → String → Prop} {es : List Expr}
    {us : List (Term (Slot × String))} (h : us.map (Term.map Prod.fst) = es.map fun e => (e.emit sc {} beside).term)
    (hR : ∀ u ∈ us, ∀ e : Expr, u.map Prod.fst = (e.emit sc {} beside).term → R e (u.map Prod.snd).render) :
    List.Forall₂ R es (us.map fun u => (u.map Prod.snd).render) := by
  induction us generalizing es with
  | nil =>
    obtain rfl := List.map_eq_nil_iff.1 h.symm
    exact .nil
  | cons u us ih =>
    obtain ⟨e, es, rfl, he, hes⟩ := List.map_eq_cons_iff.1 h.symm
    exact .cons (hR u (by simp) e he.symm) (ih hes.symm fun v hv => hR v (by simp [hv]))

/-- **The operands of a call keep whole where they bind strongly enough.** The
text of the call is its template with the texts of the operands in it. Whenever
these are read as phrases, as those of plain operands are, the text of the call is
read as its structure with the phrases as operands if, and only if, they bind
strongly enough for their places. -/
theorem compile_call_operands {method : Method} {receiver e : Expr} {arguments : List Expr} {table : Table}
    {settings : Settings} {qualifier : Option String} {cmd : Command} (hspliced : method.isSpliced)
    (hcall : Expr.callOf method (some receiver) arguments = .ok e) (hstem : IsIdentifier settings.stem)
    (hnames : ∀ n ∈ e.filterNames, IsIdentifier n) (h : e.compile table settings qualifier = .ok cmd) :
    ∃ (run : List (Slot × String)) (r : Registry) (text : String) (texts : List String) (beside : Bool),
      Visits Slot.settle (.ofSettings settings) run r ∧ cmd.parameters = r.parameters ∧
      receiver.SplicedAs (.ofSettings table settings qualifier) run false text ∧
      List.Forall₂ (Expr.SplicedAs (.ofSettings table settings qualifier) run beside) arguments texts ∧
      cmd.text = (Template.ofMethod method arguments.length).render (text :: texts) ∧
      ∀ (x : ReadTree) (xs : List ReadTree), readPhrase text = some x → texts.map readPhrase = xs.map some →
        ∃ t, method.phrase? x xs = some t ∧ (readPhrase cmd.text = some t ↔ method.keepsWhole x xs) := by
  obtain ⟨haccepts, rfl⟩ := Expr.callOf_eq_ok hcall
  obtain ⟨u, r, hu, hv, hok⟩ | ⟨err, r, -, herr⟩ := Expr.compile_cases _ table settings qualifier
  swap
  · rw [herr] at h
    cases h
  rw [hok] at h
  cases h
  have hbuilt := Expr.built_of_names hnames hu
  rw [Expr.term_spliced hspliced] at hu
  obtain ⟨us, rfl, hus⟩ := Term.eq_call_of_map hu
  obtain ⟨v, vs, rfl, hreceiver, harguments⟩ := List.map_eq_cons_iff.1 hus
  have hlength : vs.length = arguments.length := by simpa using congrArg List.length harguments
  choose! spell hspell using hv.spelled hstem (fun _ _ _ => id) fun p hp => hbuilt.of_mem_slots hp
  have hspell := fun p hp => (hspell p hp).1
  have hoperands := hbuilt.operands
  -- how the operands, and the call, are read
  have hread : ∀ w : Term (Slot × String), w.Built (fun _ _ _ => True) (fun p => p.1.Takes Filter.Named) →
      w.slots ⊆ (Term.call (.ofMethod method arguments.length) (v :: vs)).slots →
      readPhrase (w.map Prod.snd).render =
        readWords .ranks (words (w.fragment.flatMap (Token.lexemes (spelling spell)))) := by
    intro w hw hslots
    rw [readPhrase, readTree, hw.lex_render hslots hspell]
    rfl
  have hreads : ∀ w ∈ v :: vs, readPhrase (w.map Prod.snd).render =
      readWords .ranks (words (w.fragment.flatMap (Token.lexemes (spelling spell)))) := fun w hw =>
    hread w (hoperands w hw) (Term.slots_operand hw)
  refine ⟨_, r, (v.map Prod.snd).render, vs.map fun w => (w.map Prod.snd).render, _, hv, rfl,
    Expr.splicedAs_of_emit hreceiver (hoperands v (by simp)) (Term.slots_operand (by simp)) hv.accepted hspell,
    Expr.forall₂_emit harguments fun w hw e he =>
      Expr.splicedAs_of_emit he (hoperands w (by simp [hw])) (Term.slots_operand (by simp [hw])) hv.accepted hspell,
    ?_, fun x xs hx hxs => ?_⟩
  · rw [Term.map_call, Term.render_call, List.map_cons, List.map_cons, List.map_map]
    rfl
  rw [hreads v (by simp), readWords_iff] at hx
  have hxs : (vs.map fun w => words (w.fragment.flatMap (Token.lexemes (spelling spell)))).map (readWords .ranks) =
      xs.map some := by
    rw [← hxs, List.map_map, List.map_map]
    exact List.map_congr_left fun w hw => (hreads w (by simp [hw])).symm
  obtain ⟨hwords, hphrases⟩ := readWords_each hxs
  have hcount : xs.length = arguments.length := by simpa [hlength] using (congrArg List.length hwords).symm
  obtain ⟨t, ht⟩ := method.exists_phrase hspliced x (hcount ▸ haccepts)
  refine ⟨t, ht, ?_⟩
  have hlayout : words ((Term.call (.ofMethod method arguments.length) (v :: vs)).fragment.flatMap
      (Token.lexemes (spelling spell))) = t.words := by
    have hwords : (vs.map fun w => w.fragment.flatMap (Token.lexemes (spelling spell))).map words =
        xs.map Tree.words := by
      rw [← hwords, List.map_map]
      rfl
    have hwhole := Method.words_layout ht hphrases hx.2.symm hwords
    rw [List.length_map, hlength] at hwhole
    rw [lexemes_call, List.map_cons]
    exact hwhole
  show readPhrase (Term.map Prod.snd _).render = _ ↔ _
  rw [hread _ hbuilt (List.Subset.refl _), hlayout, readWords_iff, and_iff_left rfl,
    Method.isPhrase_iff ht hx.1 hphrases]

/-- An expression without slots has one text. -/
theorem Expr.TextIn.eq_render {sc : Scope} {run : List (Slot × String)} {beside : Bool} {e : Expr} {text : String}
    (h : e.TextIn sc run beside text) (hslots : (e.emit sc {} beside).term.fragment.slots = []) :
    text = Fragment.render ((e.emit sc {} beside).term.fragment.map (Token.map fun _ => "")) := by
  obtain ⟨u, hu, -, rfl⟩ := h
  rw [← hu, Term.fragment_map] at hslots ⊢
  rw [Fragment.slots_map, List.map_eq_nil_iff] at hslots
  rw [Term.render, Term.fragment_map, List.map_map]
  refine congrArg Fragment.render (List.map_congr_left fun t ht => ?_)
  cases t with
  | slot p =>
    have hp := Fragment.mem_slots.2 ht
    rw [hslots] at hp
    cases hp
  | text s | name s | key s => rfl

/-- A part of a text inside a document, from a sum on. -/
def summedStart : Expr :=
  .call .substring (some (.member none ["d", "k"] .text))
    [.binary .add (.member none ["a"] .integer) (.member none ["b"] .integer)]

theorem summedStart_text : (summedStart.compile plainTable {} none).toOption.map (·.text) =
    some "SUBSTRING(\"t\".\"d\"->>'k' FROM \"t\".\"a\" + \"t\".\"b\"+1)" := by
  decide +kernel

/-- The operand of a sum that is counted from one stays a sum. -/
theorem summedStart_whole :
    Expr.callOf .substring (some (.member none ["d", "k"] .text))
        [.binary .add (.member none ["a"] .integer) (.member none ["b"] .integer)] = .ok summedStart ∧
      ∃ (cmd : Command) (x y t : ReadTree), summedStart.compile plainTable {} none = .ok cmd ∧
        readPhrase "\"t\".\"d\"->>'k'" = some x ∧ readPhrase "\"t\".\"a\" + \"t\".\"b\"" = some y ∧
        Method.substring.phrase? x [y] = some t ∧ readPhrase cmd.text = some t := by
  have htext := summedStart_text
  cases hc : summedStart.compile plainTable {} none with
  | error e =>
    rw [hc] at htext
    cases htext
  | ok cmd =>
    have hcall : Expr.callOf .substring (some (.member none ["d", "k"] .text))
        [.binary .add (.member none ["a"] .integer) (.member none ["b"] .integer)] = .ok summedStart := rfl
    obtain ⟨run, r, text, texts, beside, -, -, hreceiver, harguments, -, hread⟩ :=
      compile_call_operands rfl hcall (by decide) (by decide) hc
    cases harguments with
    | @cons _ argument _ texts hargument hnone =>
    cases hnone
    have hreceiver : text = "\"t\".\"d\"->>'k'" := hreceiver.written.eq_render rfl
    have hargument : argument = "\"t\".\"a\" + \"t\".\"b\"" := by
      cases beside <;> exact hargument.written.eq_render rfl
    subst hreceiver hargument
    obtain ⟨t, ht, hiff⟩ := hread (.operation (.arrow true) (.leaf [.quoted '"' "t", .plain ".", .quoted '"' "d"])
        (.leaf [.quoted '\'' "k"]))
      [.operation Method.addition (.leaf [.quoted '"' "t", .plain ".", .quoted '"' "a"])
        (.leaf [.quoted '"' "t", .plain ".", .quoted '"' "b"])] rfl rfl
    exact ⟨hcall, cmd, _, _, t, rfl, rfl, rfl, ht, hiff.2 (by decide)⟩

/-- A part of a text from a masked position on. -/
def maskedStart : Expr :=
  .call .substring (some (.constant (.string "abcdef"))) [.binary .and (.constant (.int 2)) (.constant (.int 6))]

theorem maskedStart_text : (maskedStart.compile plainTable {} none).toOption.map (·.text) =
    some "SUBSTRING(@p0 FROM @p1 & @p2+1)" := by
  decide +kernel

/-- The mask is taken of the sum. -/
theorem maskedStart_regrouped :
    ∃ (cmd : Command) (x y t : ReadTree), maskedStart.compile plainTable {} none = .ok cmd ∧
      cmd.text = "SUBSTRING(@p0 FROM @p1 & @p2+1)" ∧ readPhrase "@p0" = some x ∧ readPhrase "@p1 & @p2" = some y ∧
      Method.substring.phrase? x [y] = some t ∧ readPhrase cmd.text ≠ some t := by
  have htext := maskedStart_text
  cases hc : maskedStart.compile plainTable {} none with
  | error e =>
    rw [hc] at htext
    cases htext
  | ok cmd =>
    rw [hc] at htext
    have htext : cmd.text = "SUBSTRING(@p0 FROM @p1 & @p2+1)" := Option.some.inj htext
    have hread : readPhrase "SUBSTRING(@p0 FROM @p1 & @p2+1)" =
        some (.group [[.plain "SUBSTRING", .plain "("], [.plain "FROM"], [.plain ")"]] [.leaf [.parameter '@' "p0"],
          .operation (.binary (.operator .and)) (.leaf [.parameter '@' "p1"])
            (.operation Method.addition (.leaf [.parameter '@' "p2"]) (.leaf [.plain "1"]))]) := by
      rfl
    refine ⟨cmd, .leaf [.parameter '@' "p0"], .operation (.binary (.operator .and)) (.leaf [.parameter '@' "p1"])
      (.leaf [.parameter '@' "p2"]), _, rfl, htext, rfl, rfl, rfl, ?_⟩
    rw [htext, hread]
    intro h
    cases h

end ParamQuery
