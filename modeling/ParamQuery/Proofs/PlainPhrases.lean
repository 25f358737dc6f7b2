/-
The texts of plain expressions as phrases. The leaves of an expression are
operands, so its text is that of a tree whose parentheses fit, and every table
that refines the levels reads it as its operators group it from left to right.

`Expr.Plain.reading`: by the levels and by the ranks the text of a plain
expression is read as the same tree.
-/
import ParamQuery.Proofs.ExpressionText
import ParamQuery.Proofs.PhraseReading
import ParamQuery.Proofs.Quoting
import ParamQuery.Proofs.Regrouping

namespace ParamQuery

open Sql

/-! ## Leaves -/

section Lexemes

variable {β γ : Type}

/-- A fragment without slots has the lexemes of its texts. -/
theorem lexemes_of_slots_eq_nil {g : β → γ} {F : Fragment β} {f : Fragment γ} (h : F.map (Token.map g) = f)
    (hf : f.slots = []) (x : β → List Lexeme) :
    F.flatMap (Token.lexemes x) = f.flatMap (Token.lexemes fun _ => []) := by
  subst h
  rw [Fragment.slots_map, List.map_eq_nil_iff] at hf
  rw [List.flatMap_map]
  refine List.flatMap_congr fun t ht => ?_
  cases t with
  | slot b =>
    have hb := Fragment.mem_slots.2 ht
    rw [hf] at hb
    cases hb
  | text s | name s | key s => rfl

theorem lexemes_splice (f : Fragment β) (spell : β → Fragment γ) (x : γ → List Lexeme) :
    (f.splice spell).flatMap (Token.lexemes x) =
      f.flatMap (Token.lexemes fun b => (spell b).flatMap (Token.lexemes x)) := by
  rw [Fragment.splice, List.flatMap_assoc]
  refine List.flatMap_congr fun t _ => ?_
  cases t <;> simp [Token.splice, Token.lexemes]

end Lexemes

theorem mem_weave {a : Type} {ps : List (List a)} {p : List a} (hp : p ∈ ps) {x : a} (hx : x ∈ p)
    (ks : List (List a)) : x ∈ weave ps ks := by
  induction ps generalizing ks with
  | nil => cases hp
  | cons q ps ih =>
    cases ks with
    | nil =>
      rw [weave_nil]
      exact List.mem_flatten.2 ⟨p, hp, hx⟩
    | cons k ks =>
      rw [weave]
      rcases List.mem_cons.1 hp with rfl | hp
      · exact List.mem_append_left _ (List.mem_append_left _ hx)
      · exact List.mem_append_right _ (ih hp ks)

/-- The tokens of a leaf are among those of the tree. -/
theorem Sql.Tree.Laid.mem_fragment {α β : Type} {text : α → Fragment β} {t : Tree Head α} (h : t.Laid) {a : α}
    (ha : a ∈ t.leaves) {x : Token β} (hx : x ∈ text a) : x ∈ t.fragment text := by
  induction h with
  | leaf b => exact List.mem_singleton.1 ha ▸ hx
  | operation op _ _ ihl ihr =>
    rcases List.mem_append.1 ha with ha | ha
    · exact List.mem_append_left _ (ihl ha)
    · exact List.mem_append_right _ (List.mem_cons_of_mem _ (ihr ha))
  | negation _ ih | paren _ ih => exact List.mem_cons_of_mem _ (List.mem_append_left _ (ih ha))
  | nullTest negated _ ih => exact List.mem_append_left _ (ih ha)
  | @group closer first rest parts _ _ _ ih =>
    rw [Tree.leaves, leavesEach_eq_flatMap] at ha
    obtain ⟨t, ht, ha⟩ := List.mem_flatMap.1 ha
    rw [Tree.fragment, fragmentEach_eq_map]
    exact List.mem_append_right _ (mem_weave (List.mem_map.2 ⟨t, ht, rfl⟩) (ih t ht ha) _)

theorem Sql.Tree.leaves_map {κ κ' α β : Type} (h : κ → κ') (f : α → β) (t : Tree κ α) :
    (t.map h f).leaves = t.leaves.map f := by
  induction t using Tree.induction with
  | leaf a => rfl
  | operation op left right ihl ihr => simp only [Sql.Tree.map, Tree.leaves, ihl, ihr, List.map_append]
  | negation t ih | nullTest t negated ih | paren t ih => exact ih
  | group head parts ih =>
    simp only [Sql.Tree.map, Tree.leaves, leavesEach_eq_flatMap, mapEach_eq_map, List.flatMap_map, List.map_flatMap]
    exact List.flatMap_congr ih

theorem Sql.Fragment.Legible.of_map {β γ : Type} {g : β → γ} {f : Fragment β}
    (h : Fragment.Legible (f.map (Token.map g))) : f.Legible := by
  refine ⟨((List.isChain_map _).1 h.spaced).imp fun a b hab => ?_, fun t ht => ?_⟩
  · rwa [Token.tight_map, Token.delimiter_map] at hab
  · have hwhole := h.whole _ (List.mem_map.2 ⟨t, ht, rfl⟩)
    rwa [Token.whole_map] at hwhole

theorem Sql.Fragment.Shifts.of_map {β γ : Type} {a b : Nat} {g : β → γ} {f : Fragment β}
    (h : Fragment.Shifts a b (f.map (Token.map g))) : f.Shifts a b := by
  rw [Fragment.Shifts, List.flatMap_map] at h
  refine Eq.trans (congrArg (nesting a) (List.flatMap_congr fun t _ => ?_)) h
  cases t <;> rfl

section Leaves

variable {sc : Scope}

/-- Statements are built whatever their filters are. -/
theorem Query.emit_statement (q : Query) (sc : Scope) :
    (Term.subquery (q.emit sc)).Built (fun _ _ _ => True) (Slot.Takes fun _ _ _ => True) :=
  Expr.emit_built (fun _ _ => trivial) (fun _ => trivial) (.subquery q)
    (Expr.fits_of_filters (fun _ _ _ _ => trivial) fun _ _ _ => trivial) sc {} false rfl

theorem Atom.Tokens.legible {a : Atom} {f : Fragment Slot} (h : a.Tokens sc f) : f.Legible := by
  cases a with
  | expr e =>
    cases e with
    | constant v =>
      obtain ⟨asText, rfl⟩ := h
      exact .slot _
    | subquery q =>
      cases h
      exact (Select.legible_of_built (q.emit_statement sc)).parenthesized
    | source | binary | conditional | member | call | project | unary => exact h.elim
  | column root base =>
    cases h
    exact .qualified _ _
  | key s =>
    cases h
    exact .key s

variable {spell : Slot × String → Fragment String}

/-- How a slot is read whose text consists of the given tokens. -/
def spelling (spell : Slot × String → Fragment String) (p : Slot × String) : List Lexeme :=
  (spell p).flatMap (Token.lexemes textLexemes)

theorem operand_singleton {x : Lexeme} (h : x.isOperatorSign = false) : Operand [x] :=
  ⟨List.cons_ne_nil _ _, fun _ hy => Option.some.inj hy ▸ h, fun _ hy => Option.some.inj hy ▸ h⟩

theorem words_statement (l : List Lexeme) :
    words (textLexemes "(" ++ (textLexemes "SELECT " ++ (l ++ textLexemes ")"))) =
      Word.plain "(" :: Word.plain "SELECT" :: words l ++ [Word.plain ")"] := by
  rw [words_loose_append (by decide), words_loose_append (by decide), words_append_of_loose (by decide)]
  rfl

/-- A statement in parentheses is one operand, whatever stands in it. -/
theorem statement_operand {l : List Lexeme} (h : Balanced l) :
    let enclosed := textLexemes "(" ++ (textLexemes "SELECT " ++ (l ++ textLexemes ")"))
    Operand enclosed ∧ IsOperand (words enclosed) := by
  constructor
  · rw [← List.append_assoc (textLexemes "SELECT ")]
    exact operand_of_edges (by decide) (by decide)
  · rw [words_statement]
    exact .statement ((foldlM_nest_words l 0).trans h)

theorem Spelled.balanced {p : Slot × String} (h : Spelled p (spell p)) : Balanced (spelling spell p) :=
  h.level.lexemes fun s hs => balanced_of_isSigns (h.signs s hs)

/-- What a leaf of an expression is read from: a parameter, a statement in
parentheses, a column, or a key. -/
theorem Atom.Tokens.lexemes_cases {a : Atom} {F : Fragment (Slot × String)}
    (h : a.Tokens sc (F.map (Token.map Prod.fst))) (hspell : ∀ p ∈ F.slots, Spelled p (spell p)) :
    (∃ sigil name, F.flatMap (Token.lexemes (spelling spell)) = [.parameter sigil name]) ∨
    (∃ l, Balanced l ∧ F.flatMap (Token.lexemes (spelling spell)) =
      textLexemes "(" ++ (textLexemes "SELECT " ++ (l ++ textLexemes ")"))) ∨
    (∃ q q' table column, F.flatMap (Token.lexemes (spelling spell)) =
      [Lexeme.quoted q table] ++ [Lexeme.char '.'] ++ [Lexeme.quoted q' column]) ∨
    ∃ q s, F.flatMap (Token.lexemes (spelling spell)) = [.quoted q s] := by
  cases a with
  | expr e =>
    cases e with
    | constant v =>
      obtain ⟨asText, hF⟩ := h
      obtain ⟨t, rfl, ht⟩ := List.map_eq_singleton_iff.1 hF
      cases t with
      | slot p =>
        have hp : p.1 = .value v asText := Token.slot.inj ht
        obtain ⟨sigil, name, hmarker⟩ := (hspell p (by simp [Token.slots])).marker v asText hp
        exact .inl ⟨sigil, name, by simpa [Token.lexemes, spelling] using hmarker⟩
      | text s | name s | key s => cases ht
    | subquery q =>
      have h : F.map (Token.map Prod.fst) =
          ["("].map Token.text ++ ((q.emit sc).frame.statement ++ [")"].map Token.text) := h
      obtain ⟨R, rfl, hR⟩ := eq_texts_append ["("] h
      obtain ⟨S, rfl, hS⟩ := eq_append_texts [")"] hR
      have hlevel : Fragment.Level S := by
        refine .of_map (g := Prod.fst) ?_
        rw [hS]
        exact Select.level_of_built (q.emit_statement sc)
      have hbalanced := hlevel.lexemes (x := spelling spell) fun p hp => (hspell p (by simp [hp])).balanced
      obtain ⟨F, rfl, -⟩ := eq_texts_append ["SELECT "] hS
      exact .inr (.inl ⟨F.flatMap (Token.lexemes (spelling spell)), hbalanced, by simp [Token.lexemes]⟩)
    | source | binary | conditional | member | call | project | unary => exact h.elim
  | column root base => exact .inr (.inr (.inl ⟨_, _, _, _, lexemes_of_slots_eq_nil h rfl _⟩))
  | key s => exact .inr (.inr (.inr ⟨_, _, lexemes_of_slots_eq_nil h rfl _⟩))

/-- The leaves of an expression are operands. -/
theorem Atom.Tokens.falls {a : Atom} {F : Fragment (Slot × String)} (h : a.Tokens sc (F.map (Token.map Prod.fst)))
    (hspell : ∀ p ∈ F.slots, Spelled p (spell p)) : Tree.Falls Prod.snd (spelling spell) (.leaf (a, F)) := by
  suffices hleaf : Operand (F.flatMap (Token.lexemes (spelling spell))) ∧
      IsOperand (words (F.flatMap (Token.lexemes (spelling spell)))) from ⟨hleaf.1, rfl, .leaf hleaf.2⟩
  obtain ⟨sigil, name, hF⟩ | ⟨l, hl, hF⟩ | ⟨q, q', table, column, hF⟩ | ⟨q, s, hF⟩ := h.lexemes_cases hspell
  all_goals rw [hF]
  · exact ⟨operand_singleton rfl, .parameter sigil name⟩
  · exact statement_operand hl
  · exact ⟨(operand_singleton rfl).append [.char '.'] (operand_singleton rfl), .field (.quoted q table) q' column⟩
  · exact ⟨operand_singleton rfl, .quoted q s⟩

/-- Reading a fragment whose slots have their texts. -/
theorem lex_spelled {F : Fragment (Slot × String)} (hF : F.Legible) (h : ∀ p ∈ F.slots, Spelled p (spell p)) :
    lex (Fragment.render (F.map (Token.map Prod.snd))) = some (F.flatMap (Token.lexemes (spelling spell))) := by
  obtain ⟨hrender, hlegible, hsigns⟩ := Spelled.splice hF h
  rw [← hrender, hlegible.lex fun s hs => isReadable_of_isSigns (hsigns s hs), lexemes_splice]
  rfl

end Leaves

/-! ## Trees -/

/-- Parentheses inside a tree do not change how strongly it binds. -/
theorem Sql.Tree.strengths_strip {κ α : Type} (T : Precedence) {t : Tree κ α} (h : ∀ x, t ≠ .paren x) :
    t.strip.leftStrength T = t.leftStrength T ∧ t.strip.rightStrength T = t.rightStrength T := by
  cases t with
  | paren t => exact absurd rfl (h t)
  | leaf | operation | negation | nullTest | group => exact ⟨rfl, rfl⟩

theorem Sql.Tree.strengths_map {κ κ' α α' : Type} (T : Precedence) (f : κ → κ') (g : α → α') (t : Tree κ α) :
    (t.map f g).leftStrength T = t.leftStrength T ∧ (t.map f g).rightStrength T = t.rightStrength T := by
  cases t <;> exact ⟨rfl, rfl⟩

/-- **The text of a tree is read as its operators group it**, by any table that
refines the levels. -/
theorem Sql.Tree.Laid.reading {α β : Type} {text : α → Fragment β} {x : β → List Lexeme} {t : Tree Head α}
    (ht : t.Laid) (hfits : t.Fits) (hleaf : ∀ a ∈ t.leaves, Tree.Falls text x (.leaf a)) {T : Precedence}
    (hT : T.Refines) :
    readWords T (Sql.words (t.lexemes text x)) = some (Tree.regroup none (t.spelled text x)) ∧
      (Tree.regroup none (t.spelled text x)).leftEdge T = t.leftStrength T ∧
      (Tree.regroup none (t.spelled text x)).rightEdge T = t.rightStrength T := by
  have hfalls := ht.falls hleaf
  have hspelled : (t.spelled text x).Fits := hfits.map _ _
  have h := hspelled.regrouped hT hfalls.formed none (fun p hp => by cases hp) fun p hp => by cases hp
  obtain ⟨hleft, hright⟩ := t.strengths_map T Head.words fun a => Sql.words ((text a).flatMap (Token.lexemes x))
  rw [hfalls.words_eq]
  exact ⟨readWords_iff.2 ⟨h.phrase, h.words⟩, h.left.trans hleft, h.right.trans hright⟩

/-! ## Plain expressions -/

/-- The term of an expression, filled by a run, is built with filters whose names
are identifiers. -/
theorem Expr.built_of_names {e : Expr} {sc : Scope} {m : Mode} {beside : Bool}
    (hnames : ∀ n ∈ e.filterNames, IsIdentifier n) {u : Term (Slot × String)}
    (hu : u.map Prod.fst = (e.emit sc m beside).term) :
    u.Built (fun _ _ _ => True) fun p => p.1.Takes Filter.Named := by
  have hfilters : ∀ {p}, Expr.subquery p ∈ e.subterms → ∀ {f}, f ∈ p.filters →
      f.Named sc.table (some (p.tableName sc.table)) :=
    fun hp _ hf n hn => hnames n (List.mem_flatMap.2 ⟨_, hp, List.mem_flatMap.2 ⟨_, hf, hn⟩⟩)
  refine Term.Built.of_map (S := Slot.Takes Filter.Named) ?_
  rw [hu]
  exact (Expr.emit_built (fun _ _ => trivial) (fun _ => trivial) e).term
    (Expr.fits_of_filters (fun _ _ _ _ => trivial) hfilters) sc rfl m beside

/-- The words that a leaf is read from, once a run has given its slots their
texts. -/
def Atom.ReadFrom (sc : Scope) (run : List (Slot × String)) (a : Atom) (ws : List Word) : Prop :=
  ∃ F : Fragment (Slot × String), a.Tokens sc (F.map (Token.map Prod.fst)) ∧ F.slots ⊆ run ∧
    (lex (Fragment.render (F.map (Token.map Prod.snd)))).map words = some ws

section Reading

variable {sc : Scope} {run : List (Slot × String)} {spell : Slot × String → Fragment String}

/-- The lexemes of a term whose slots have their texts. -/
theorem Sql.Term.Built.lex_render {u : Term (Slot × String)}
    (hbuilt : u.Built (fun _ _ _ => True) fun p => p.1.Takes Filter.Named) (hrun : u.slots ⊆ run)
    (hspell : ∀ p ∈ run, Spelled p (spell p)) :
    lex (u.map Prod.snd).render = some (u.fragment.flatMap (Token.lexemes (spelling spell))) := by
  rw [Term.render, Term.fragment_map]
  exact lex_spelled hbuilt.legible fun p hp => hspell p (hrun (hbuilt.slots_subset hp))

/-- Reading the text of a term that is written as a tree, once a run has given
its slots their texts. -/
theorem Written.reading {u : Term (Slot × String)} {t : Tree Head (Atom × Fragment Slot)}
    (hwritten : Written sc (u.map Prod.fst).fragment t)
    (hbuilt : u.Built (fun _ _ _ => True) fun p => p.1.Takes Filter.Named) (hrun : u.slots ⊆ run)
    (hspell : ∀ p ∈ run, Spelled p (spell p)) :
    ∃ (spelt : Tree Head (Atom × List Word)) (phrase : ReadTree), spelt.map id Prod.fst = shapeOf t ∧
      (∀ p ∈ spelt.leaves, p.1.ReadFrom sc run p.2) ∧
      (phrase.normal = (spelt.map Head.words Prod.snd).normal ↔ (shapeOf t).unbroken) ∧
      ∀ T : Precedence, T.Refines → readTree T (u.map Prod.snd).render = some phrase ∧
        phrase.leftEdge T = t.leftStrength T ∧ phrase.rightEdge T = t.rightStrength T := by
  -- the tree of the term before its slots became texts
  obtain ⟨v, hlaid, rfl, hfragment⟩ := hwritten.laid.exists_lift (F := u.fragment) (g := Prod.fst) (by
    rw [← Term.fragment_map, hwritten.fragment])
  have htree : shapeOf (v.map id fun p => (p.1, p.2.map (Token.map Prod.fst))) = v.strip.map id Prod.fst := by
    rw [shapeOf, Tree.map_map, Tree.strip_map]
    rfl
  have hleaves : ∀ p ∈ v.leaves, p.1.Tokens sc (p.2.map (Token.map Prod.fst)) ∧ p.2.slots ⊆ u.fragment.slots := by
    intro p hp
    refine ⟨hwritten.leaves (p.1, p.2.map (Token.map Prod.fst)) ?_, fun s hs => Fragment.mem_slots.2 ?_⟩
    · rw [Tree.leaves_map]
      exact List.mem_map.2 ⟨p, hp, rfl⟩
    · rw [← hfragment]
      exact hlaid.mem_fragment hp (Fragment.mem_slots.1 hs)
  have hslots : ∀ p ∈ v.leaves, p.2.slots ⊆ run := fun p hp s hs =>
    hrun (hbuilt.slots_subset ((hleaves p hp).2 hs))
  have hspelt : ∀ p ∈ v.leaves, ∀ s ∈ p.2.slots, Spelled s (spell s) := fun p hp s hs =>
    hspell s (hslots p hp hs)
  have hfits := hwritten.fits.of_map _ _
  refine ⟨v.strip.map id fun p => (p.1, words (p.2.flatMap (Token.lexemes (spelling spell)))),
    Tree.regroup none (v.spelled Prod.snd (spelling spell)), ?_, ?_, ?_, fun T hT => ?_⟩
  · rw [Tree.map_map, htree]
    rfl
  · rw [Tree.leaves_map, Tree.leaves_strip]
    intro q hq
    obtain ⟨p, hp, rfl⟩ := List.mem_map.1 hq
    have htokens := (hleaves p hp).1
    refine ⟨p.2, htokens, hslots p hp, ?_⟩
    rw [lex_spelled htokens.legible.of_map (hspelt p hp)]
    rfl
  · have hnormal := Tree.normal_regroup (hfits.map Head.words fun p =>
      words (p.2.flatMap (Token.lexemes (spelling spell))))
    rw [Tree.strip_map, Tree.unbroken_map] at hnormal
    rw [Tree.map_map, htree, Tree.unbroken_map]
    exact hnormal
  · obtain ⟨hread, hleft, hright⟩ := hlaid.reading hfits
      (fun p hp => (hleaves p hp).1.falls (hspelt p hp)) hT
    obtain ⟨hleft', hright'⟩ := v.strengths_map T id fun p => (p.1, p.2.map (Token.map Prod.fst))
    refine ⟨?_, hleft.trans hleft'.symm, hright.trans hright'.symm⟩
    rw [readTree, hbuilt.lex_render hrun hspell, ← hfragment]
    exact hread

/-- A phrase with the operators of an expression where they are, up to the grouping
of chains of one associative operator, if its tree is unbroken. -/
def Expr.ReadsAs (sc : Scope) (run : List (Slot × String)) (e : Expr) (phrase : ReadTree) : Prop :=
  ∃ t : Tree Head (Atom × List Word), t.map id Prod.fst = e.tree ∧ (∀ p ∈ t.leaves, p.1.ReadFrom sc run p.2) ∧
    (phrase.normal = (t.map Head.words Prod.snd).normal ↔ e.tree.unbroken)

/-- **The text of a plain expression is read as one tree** by every table that
refines the levels; its edges bind as strongly as the expression does. -/
theorem Expr.Plain.reading_edges {e : Expr} (hplain : e.Plain) {beside : Bool} {u : Term (Slot × String)}
    (hu : u.map Prod.fst = (e.emit sc {} beside).term)
    (hbuilt : u.Built (fun _ _ _ => True) fun p => p.1.Takes Filter.Named) (hrun : u.slots ⊆ run)
    (haccepted : ∀ p ∈ run, p.1.isAccepted) (hspell : ∀ p ∈ run, Spelled p (spell p)) :
    ∃ phrase, e.ReadsAs sc run phrase ∧
      ∀ T : Precedence, T.Refines → readTree T (u.map Prod.snd).render = some phrase ∧
        phrase.leftEdge T = e.tree.leftStrength T ∧ phrase.rightEdge T = e.tree.rightStrength T := by
  have haccepted : (e.emit sc {} beside).term.Accepted := by
    rw [← hu]
    intro s hs
    rw [Term.slots_map] at hs
    obtain ⟨p, hp, rfl⟩ := List.mem_map.1 hs
    exact haccepted p (hrun hp)
  obtain ⟨t, hwritten, hshape, hbinds⟩ := hplain.shaped sc {} beside rfl haccepted
  rw [← hu] at hwritten
  obtain ⟨spelt, phrase, hspelt, hleaves, hnormal, hread⟩ := hwritten.reading hbuilt hrun hspell
  rw [hshape] at hspelt hnormal
  refine ⟨phrase, ⟨spelt, hspelt, hleaves, hnormal⟩, fun T hT => ?_⟩
  obtain ⟨htext, hleft, hright⟩ := hread T hT
  have hmap := t.strengths_map T id Prod.fst
  have hstrip := Tree.strengths_strip T (t := t.map id Prod.fst) fun x hx => by
    cases t with
    | paren t => exact hbinds.bare t rfl
    | leaf | operation | negation | nullTest | group => cases hx
  have hstrengths : e.tree.leftStrength T = t.leftStrength T ∧ e.tree.rightStrength T = t.rightStrength T := by
    rw [← hshape]
    exact ⟨hstrip.1.trans hmap.1, hstrip.2.trans hmap.2⟩
  exact ⟨htext, hleft.trans hstrengths.1.symm, hright.trans hstrengths.2.symm⟩

/-- By the ranks and by the levels the text is read as the same tree. -/
theorem Expr.Plain.reading {e : Expr} (hplain : e.Plain) {beside : Bool} {u : Term (Slot × String)}
    (hu : u.map Prod.fst = (e.emit sc {} beside).term)
    (hbuilt : u.Built (fun _ _ _ => True) fun p => p.1.Takes Filter.Named) (hrun : u.slots ⊆ run)
    (haccepted : ∀ p ∈ run, p.1.isAccepted) (hspell : ∀ p ∈ run, Spelled p (spell p)) :
    ∃ phrase, readPhrase (u.map Prod.snd).render = some phrase ∧
      readExpression (u.map Prod.snd).render = some phrase.strip ∧ e.ReadsAs sc run phrase := by
  obtain ⟨phrase, hreads, hread⟩ := hplain.reading_edges hu hbuilt hrun haccepted hspell
  refine ⟨phrase, (hread _ refines_ranks).1, ?_, hreads⟩
  rw [readExpression, (hread _ refines_levels).1, Option.map_some]

end Reading

/-- The text of an expression that is written as a plain one is read as the tree
of the plain one. -/
theorem Expr.Plain.compile_reading {e e' : Expr} {table : Table} {settings : Settings} {qualifier : Option String}
    {cmd : Command} (hplain : e'.Plain)
    (hterm : (e.emit (.ofSettings table settings qualifier) {} false).term =
      (e'.emit (.ofSettings table settings qualifier) {} false).term)
    (hstem : IsIdentifier settings.stem) (hnames : ∀ n ∈ e.filterNames, IsIdentifier n)
    (h : e.compile table settings qualifier = .ok cmd) :
    ∃ (run : List (Slot × String)) (r : Registry) (t : Tree Head (Atom × List Word)) (read : ReadTree),
      Visits Slot.settle (.ofSettings settings) run r ∧ cmd.parameters = r.parameters ∧
      t.map id Prod.fst = e'.tree ∧
      (∀ p ∈ t.leaves, p.1.ReadFrom (.ofSettings table settings qualifier) run p.2) ∧
      readExpression cmd.text = some read ∧
      (read.normal = (t.map Head.words Prod.snd).normal ↔ e'.tree.unbroken) := by
  obtain ⟨u, r, hu, hv, hok⟩ | ⟨err, r, -, herr⟩ := e.compile_cases table settings qualifier
  swap
  · rw [herr] at h
    cases h
  rw [hok] at h
  cases h
  have hbuilt := Expr.built_of_names hnames hu
  choose! spell hspell using hv.spelled hstem (fun _ _ _ => id) fun p hp => hbuilt.of_mem_slots hp
  obtain ⟨phrase, -, hread, t, htree, hleaves, hnormal⟩ :=
    hplain.reading (hu.trans hterm) hbuilt (List.Subset.refl _) hv.accepted fun p hp => (hspell p hp).1
  rw [← Tree.normal_strip] at hnormal
  exact ⟨u.slots, r, t, phrase.strip, hv, rfl, htree, hleaves, hread, hnormal⟩

end ParamQuery
