/-
The clauses of a statement found in its text. Outside of parentheses the SQL of an
expression has no keyword of a clause (`Term.Built.freeOf`), so the first `WHERE`
that stands in no parentheses is the statement's own, and what is behind it goes
on to the next clause (`Frame.parts_statement`). The conditions of a statement are
thereby read one by one from its text (`Select.read_conditions`).
-/
import ParamQuery.Proofs.BareSlots
import ParamQuery.Proofs.FilterConditions

namespace ParamQuery.Sql

variable {β : Type}

/-! ## Fragments -/

/-- Whether the words of a text are none of the keywords. -/
def isFreeText (keywords : List String) (s : String) : Bool :=
  (parts (textLexemes s)).any fun ps => ps.all (Part.isFree keywords)

theorem isFreeText_iff {keywords : List String} {s : String} :
    isFreeText keywords s ↔ ∃ ps, parts (textLexemes s) = some ps ∧ FreeOf keywords ps := by
  rw [isFreeText, Option.any_eq_true]
  rfl

/-- Text behind which a new word begins. -/
def isLead (keywords : List String) (s : String) : Bool :=
  isFreeText keywords s && (textLexemes s).getLast?.any Lexeme.isLoose

/-- Text in front of which a word ends. -/
def isTrail (keywords : List String) (s : String) : Bool :=
  isFreeText keywords s && (textLexemes s).head?.any Lexeme.isLoose

/-- Text between words. -/
def isJoint (keywords : List String) (s : String) : Bool := isTrail keywords s && isLead keywords s

/-- None of the keywords stands in the fragment outside of parentheses, given the
lexemes of its slots. -/
def Fragment.FreeOf (keywords : List String) (x : β → List Lexeme) (f : Fragment β) : Prop :=
  ∃ ps, parts (f.flatMap (Token.lexemes x)) = some ps ∧ Sql.FreeOf keywords ps

namespace Fragment.FreeOf

variable {keywords : List String} {x : β → List Lexeme} {f g : Fragment β} {s : String}

theorem nil (keywords : List String) (x : β → List Lexeme) : FreeOf keywords x [] := ⟨[], rfl, rfl⟩

theorem text (h : isFreeText keywords s) : FreeOf keywords x [.text s] := by
  obtain ⟨ps, hps, hfree⟩ := isFreeText_iff.1 h
  exact ⟨ps, by simpa [Token.lexemes] using hps, hfree⟩

theorem name (keywords : List String) (x : β → List Lexeme) (s : String) : FreeOf keywords x [.name s] :=
  ⟨[.word (.quoted '"' s)], rfl, by simp [Sql.FreeOf, Part.isFree, Part.isWord]⟩

theorem mono (h : FreeOf keywords x f) {fewer : List String} (hsub : fewer ⊆ keywords) : FreeOf fewer x f := by
  obtain ⟨ps, hps, hfree⟩ := h
  exact ⟨ps, hps, hfree.mono hsub⟩

/-- A fragment behind another one, if it does not go on with its last word. -/
theorem append (hf : FreeOf keywords x f) (hg : FreeOf keywords x g)
    (h : (g.flatMap (Token.lexemes x)).head?.any Lexeme.isLoose = true) : FreeOf keywords x (f ++ g) := by
  obtain ⟨ps, hps, hfree⟩ := hf
  obtain ⟨qs, hqs, hfree'⟩ := hg
  refine ⟨ps ++ qs, ?_, hfree.append hfree'⟩
  rw [List.flatMap_append]
  exact parts_append_of_loose hps hqs h

theorem cons (hs : isLead keywords s) (hf : FreeOf keywords x f) : FreeOf keywords x (.text s :: f) := by
  simp only [isLead, Bool.and_eq_true] at hs
  obtain ⟨ps, hps, hfree⟩ := isFreeText_iff.1 hs.1
  obtain ⟨qs, hqs, hfree'⟩ := hf
  refine ⟨ps ++ qs, ?_, hfree.append hfree'⟩
  rw [List.flatMap_cons]
  exact parts_loose_append hps hqs hs.2

theorem join (hf : FreeOf keywords x f) (hs : isJoint keywords s) (hg : FreeOf keywords x g) :
    FreeOf keywords x (f ++ Token.text s :: g) := by
  simp only [isJoint, Bool.and_eq_true] at hs
  refine hf.append (cons hs.2 hg) ?_
  have hhead := hs.1
  simp only [isTrail, Bool.and_eq_true] at hhead
  rw [List.flatMap_cons, Token.lexemes, List.head?_append]
  cases h : (textLexemes s).head? with
  | none => simp [h] at hhead
  | some c => simpa [h] using hhead.2

theorem close (hf : FreeOf keywords x f) (hs : isTrail keywords s) : FreeOf keywords x (f ++ [Token.text s]) := by
  simp only [isTrail, Bool.and_eq_true] at hs
  exact hf.append (text hs.1) (by simpa [Token.lexemes] using hs.2)

theorem separated (hs : isJoint keywords s) {fs : List (Fragment β)} (h : ∀ f ∈ fs, FreeOf keywords x f) :
    FreeOf keywords x (Fragment.separated s fs) := by
  induction fs with
  | nil => exact nil keywords x
  | cons f fs ih =>
    cases fs with
    | nil => exact h f (by simp)
    | cons g fs => exact (h f (by simp)).join hs (ih fun f' hf' => h f' (by simp [hf']))

/-- Fragments that begin with a new word each. -/
theorem append_flatMap {α : Type} {h : α → Fragment β} {l : List α} (hf : FreeOf keywords x f)
    (hl : ∀ a ∈ l, FreeOf keywords x (h a) ∧ ((h a).flatMap (Token.lexemes x)).head?.any Lexeme.isLoose = true) :
    FreeOf keywords x (f ++ l.flatMap h) := by
  induction l generalizing f with
  | nil => simpa using hf
  | cons a l ih =>
    rw [List.flatMap_cons, ← List.append_assoc]
    exact ih (hf.append (hl a (by simp)).1 (hl a (by simp)).2) fun b hb => hl b (by simp [hb])

/-- What stands in parentheses does not matter. -/
theorem called (name lead tail : String) {opening closing : String}
    (hopening : textLexemes opening = textLexemes name ++ Lexeme.char '(' :: textLexemes lead)
    (hclosing : textLexemes closing = textLexemes tail ++ [Lexeme.char ')']) (hname : isFreeText keywords name)
    (hlead : shifts 0 0 lead) (htail : shifts 0 0 tail) (hf : f.Level) (hslots : ∀ b ∈ f.slots, Balanced (x b)) :
    FreeOf keywords x (Token.text opening :: (f ++ [Token.text closing])) := by
  have hinner : Fragment.Level (Token.text lead :: (f ++ [Token.text tail])) := .cons hlead (hf.close htail)
  have hbalanced := hinner.lexemes (x := x) (by simpa [Token.slots] using hslots)
  obtain ⟨ps, hps, hfree⟩ := isFreeText_iff.1 hname
  obtain ⟨qs, hqs⟩ := exists_parts_call hps hbalanced
  refine ⟨ps ++ [.group qs], ?_, hfree.append (.group _ qs)⟩
  refine Eq.trans (congrArg parts ?_) hqs
  simp [Token.lexemes, hopening, hclosing]

theorem parenthesized (keywords : List String) (hf : f.Level) (hslots : ∀ b ∈ f.slots, Balanced (x b)) :
    FreeOf keywords x (Fragment.parenthesized f) :=
  called "" "" "" (by decide) (by decide) (by rfl) (by decide) (by decide) hf hslots

end Fragment.FreeOf

theorem Fragment.FreeOf.traversal (x : β → List Lexeme) (name : String) (steps : List String) :
    FreeOf clauseKeywords x (.name name :: Fragment.traversal steps) := by
  obtain ⟨ps, hps, hfree⟩ := parts_traversal (g := Token.lexemes x) (fun _ => rfl) id (fun _ => rfl) steps
  refine ⟨[Part.word (.quoted '"' name)] ++ ps, ?_, Sql.FreeOf.append (by rfl) hfree.inClause⟩
  rw [List.flatMap_cons]
  exact parts_loose_append rfl hps rfl

theorem isJoint_padded (op : Infix) : isJoint clauseKeywords op.padded := by
  cases op with
  | concat => decide
  | operator op => cases op <;> decide

/-- The templates of calls have no keyword of a clause outside of parentheses. -/
theorem layout_freeOf (m : Method) (n : Nat) {x : β → List Lexeme} {h : Nat → Fragment β}
    (hfree : ∀ i, Fragment.FreeOf clauseKeywords x (h i)) (hlevel : ∀ i, (h i).Level)
    (hslots : ∀ i, ∀ b ∈ (h i).slots, Balanced (x b)) :
    Fragment.FreeOf clauseKeywords x ((m.layout n).splice h) := by
  -- the operands inside the parentheses, with their slots
  have htwo : ∀ (i j : Nat) {s : String}, shifts 0 0 s → Fragment.Level (h i ++ Token.text s :: h j) ∧
      ∀ b ∈ Fragment.slots (h i ++ Token.text s :: h j), Balanced (x b) := by
    intro i j s hs
    refine ⟨(hlevel i).join hs (hlevel j), fun b hb => ?_⟩
    simp only [Fragment.slots_append, Fragment.slots_cons, Token.slots, List.nil_append, List.mem_append] at hb
    exact hb.elim (hslots i b) (hslots j b)
  have hthree : ∀ (s s' : String), shifts 0 0 s → shifts 0 0 s' →
      Fragment.Level (h 0 ++ Token.text s :: (h 1 ++ Token.text s' :: h 2)) ∧
        ∀ b ∈ Fragment.slots (h 0 ++ Token.text s :: (h 1 ++ Token.text s' :: h 2)), Balanced (x b) := by
    intro s s' hs hs'
    obtain ⟨hl, hb⟩ := htwo 1 2 hs'
    refine ⟨(hlevel 0).join hs hl, fun b hmem => ?_⟩
    simp only [Fragment.slots_append, Fragment.slots_cons, Token.slots, List.nil_append, List.mem_append] at hmem hb
    exact hmem.elim (hslots 0 b) (hb b)
  have hone : ∀ {opening : String} (name : String), textLexemes opening = textLexemes name ++ [Lexeme.char '('] →
      isFreeText clauseKeywords name →
      Fragment.FreeOf clauseKeywords x (Token.text opening :: (h 0 ++ [Token.text ")"])) :=
    fun name ho hn => .called name "" "" ho (by decide) hn (by decide) (by decide)
      (hlevel 0) (hslots 0)
  have htrim : ∀ {opening : String} (lead : String), textLexemes opening = textLexemes "TRIM" ++ Lexeme.char '(' ::
      textLexemes lead → shifts 0 0 lead →
      Fragment.FreeOf clauseKeywords x
        (Token.text opening :: ((h 1 ++ Token.text " from " :: h 0) ++ [Token.text ")"])) :=
    fun lead ho hl => .called "TRIM" lead "" ho (by decide) (by decide) hl (by decide)
      (htwo 1 0 (by decide)).1 (htwo 1 0 (by decide)).2
  cases m with
  | equals => simpa [Method.layout, Fragment.splice, Token.splice] using
      (hfree 0).join (s := " = ") (by decide) (hfree 1)
  | toLower => simpa [Method.layout, Fragment.splice, Token.splice] using hone "LOWER" (by decide) (by decide)
  | toUpper => simpa [Method.layout, Fragment.splice, Token.splice] using hone "UPPER" (by decide) (by decide)
  | reverse => simpa [Method.layout, Fragment.splice, Token.splice] using hone "REVERSE" (by decide) (by decide)
  | length => simpa [Method.layout, Fragment.splice, Token.splice] using hone "LENGTH" (by decide) (by decide)
  | concat => simpa [Method.layout, Fragment.splice, Token.splice] using hone "CONCAT" (by decide) (by decide)
  | substring =>
    by_cases hn : 1 < n
    · obtain ⟨hl, hb⟩ := hthree " FROM " "+1 FOR " (by decide) (by decide)
      have hcall : Fragment.FreeOf clauseKeywords x (Token.text "SUBSTRING(" :: (_ ++ [Token.text ")"])) :=
        .called "SUBSTRING" "" "" (by decide) (by decide) (by decide) (by decide) (by decide) hl hb
      simpa [Method.layout, hn, Fragment.splice, Token.splice] using hcall
    · obtain ⟨hl, hb⟩ := htwo 0 1 (s := " FROM ") (by decide)
      have hcall : Fragment.FreeOf clauseKeywords x (Token.text "SUBSTRING(" :: (_ ++ [Token.text "+1)"])) :=
        .called "SUBSTRING" "" "+1" (by decide) (by decide) (by decide) (by decide) (by decide) hl hb
      simpa [Method.layout, hn, Fragment.splice, Token.splice] using hcall
  | replace =>
    obtain ⟨hl, hb⟩ := hthree ", " ", " (by decide) (by decide)
    have hcall : Fragment.FreeOf clauseKeywords x (Token.text "REPLACE(" :: (_ ++ [Token.text ")"])) :=
      .called "REPLACE" "" "" (by decide) (by decide) (by decide) (by decide) (by decide) hl hb
    simpa [Method.layout, Fragment.splice, Token.splice] using hcall
  | trim => simpa [Method.layout, Fragment.splice, Token.splice] using htrim "both " (by decide) (by decide)
  | trimStart => simpa [Method.layout, Fragment.splice, Token.splice] using htrim "leading " (by decide) (by decide)
  | trimEnd => simpa [Method.layout, Fragment.splice, Token.splice] using htrim "trailing " (by decide) (by decide)
  | contains =>
    have hlike := ((hfree 0).join (s := " LIKE '%' || ") (by decide) (hfree 1)).close (s := " || '%'") (by decide)
    simpa [Method.layout, Fragment.splice, Token.splice] using hlike
  | startsWith =>
    have hlike := ((hfree 0).join (s := " LIKE ") (by decide) (hfree 1)).close (s := " || '%'") (by decide)
    simpa [Method.layout, Fragment.splice, Token.splice] using hlike
  | endsWith =>
    simpa [Method.layout, Fragment.splice, Token.splice] using
      (hfree 0).join (s := " LIKE '%' || ") (by decide) (hfree 1)

/-! ## Terms -/

section Terms

variable {ok : Method → Nat → Nat → Prop} {S : β → Prop} {x : β → List Lexeme}

theorem guardFragment_freeOf {fs : List (Fragment β)} (hfree : ∀ f ∈ fs, Fragment.FreeOf clauseKeywords x f)
    (hlevel : ∀ f ∈ fs, f.Level) (hslots : ∀ f ∈ fs, ∀ b ∈ f.slots, Balanced (x b)) :
    Fragment.FreeOf clauseKeywords x (guardFragment fs) := by
  match fs, hfree, hlevel, hslots with
  | [], _, _, _ => exact .nil _ x
  | [f], hfree, _, _ => exact hfree f (by simp)
  | f :: g :: fs, _, hlevel, hslots =>
    refine .separated (by decide) fun F hF => ?_
    obtain ⟨h, hh, rfl⟩ := List.mem_map.1 hF
    exact .parenthesized _ (hlevel h hh) (hslots h hh)

/-- **What is built has no keyword of a clause outside of parentheses**, if its
slots have none there. -/
theorem Term.Built.freeOf (hbalanced : ∀ b, S b → Balanced (x b)) {t : Term β} (h : t.Built ok S)
    (hslot : ∀ b ∈ t.bare, Fragment.FreeOf clauseKeywords x [.slot b]) :
    Fragment.FreeOf clauseKeywords x t.fragment := by
  -- what stands in the slots inside of parentheses
  have hinside : ∀ {t : Term β}, t.Built ok S → ∀ b ∈ t.fragment.slots, Balanced (x b) :=
    fun ht b hb => hbalanced b (ht.of_mem_slots (ht.slots_subset hb))
  induction h with
  | @slot b _ => exact hslot b (by simp [Term.bare])
  | table name => exact .name _ x name
  | allColumns table => exact (Fragment.FreeOf.name _ x table).close (by decide)
  | column name steps _ ih => exact (ih hslot).join (by decide) (.traversal x name steps)
  | countAll => exact .text (by decide)
  | labelled label _ ih => exact (ih hslot).join (by decide) (.name _ x label)
  | list _ ih =>
    rw [Term.bare, bareEach_eq_flatMap] at hslot
    rw [Term.fragment, termFragments_eq_map]
    refine .separated (by decide) fun f hf => ?_
    obtain ⟨t, ht, rfl⟩ := List.mem_map.1 hf
    exact ih t ht fun b hb => hslot b (List.mem_flatMap.2 ⟨t, ht, hb⟩)
  | operation op _ _ ihl ihr =>
    rw [Term.bare] at hslot
    exact (ihl fun b hb => hslot b (List.mem_append_left _ hb)).join (isJoint_padded op)
      (ihr fun b hb => hslot b (List.mem_append_right _ hb))
  | nullTest negated _ ih => exact (ih hslot).close (by cases negated <;> decide)
  | negation ht _ =>
    exact .called "NOT " "" "" (by decide) (by decide) (by decide) (by decide) (by decide) ht.level (hinside ht)
  | paren ht _ => exact .parenthesized _ ht.level (hinside ht)
  | lengthOf ht _ =>
    exact .called "LENGTH" "" "" (by decide) (by decide) (by decide) (by decide) (by decide) ht.level (hinside ht)
  | @call method n arguments _ hargs ih =>
    rw [Term.bare, bareEach_eq_flatMap] at hslot
    have harg : ∀ i, Fragment.FreeOf clauseKeywords x ((arguments.map Term.fragment).getD i []) ∧
        Fragment.Level ((arguments.map Term.fragment).getD i []) ∧
          ∀ b ∈ Fragment.slots ((arguments.map Term.fragment).getD i []), Balanced (x b) := by
      intro i
      simp only [List.getD_eq_getElem?_getD, List.getElem?_map]
      cases hi : arguments[i]? with
      | none => exact ⟨.nil _ x, .nil 0, by simp⟩
      | some t =>
        have ht := List.mem_of_getElem? hi
        exact ⟨ih t ht fun b hb => hslot b (List.mem_flatMap.2 ⟨t, ht, hb⟩), (hargs t ht).level, hinside (hargs t ht)⟩
    rw [Term.fragment, termFragments_eq_map, Template.expand_eq_splice, Method.fragment_ofMethod,
      Fragment.splice_map]
    exact layout_freeOf method n (fun i => (harg i).1) (fun i => (harg i).2.1) (fun i => (harg i).2.2)
  | @caseWhen arms otherwise hguards _ _ ihg ihv iho =>
    rw [Term.bare, bareArms_eq_flatMap] at hslot
    have hbare : ∀ a ∈ arms, ∀ b ∈ a.bare, Fragment.FreeOf clauseKeywords x [.slot b] :=
      fun a ha b hb => hslot b (List.mem_append_left _ (List.mem_flatMap.2 ⟨a, ha, hb⟩))
    have harm : ∀ a ∈ arms, Fragment.FreeOf clauseKeywords x a.fragment ∧
        (a.fragment.flatMap (Token.lexemes x)).head?.any Lexeme.isLoose = true := by
      intro a ha
      have hguard : Fragment.FreeOf clauseKeywords x (guardFragment (a.guards.map Term.fragment)) := by
        refine guardFragment_freeOf (fun f hf => ?_) (fun f hf => ?_) (fun f hf => ?_)
        all_goals obtain ⟨t, ht, rfl⟩ := List.mem_map.1 hf
        · exact ihg a ha t ht fun b hb =>
            hbare a ha b (List.mem_append_left _ (List.mem_flatMap.2 ⟨t, ht, hb⟩))
        · exact (hguards a ha t ht).level
        · exact hinside (hguards a ha t ht)
      have hvalue := ihv a ha fun b hb => hbare a ha b (List.mem_append_right _ hb)
      exact ⟨.cons (by decide) (hguard.join (by decide) hvalue), rfl⟩
    have hcase := Fragment.FreeOf.append_flatMap (f := [.text "CASE"]) (.text (by decide)) harm
    rw [Term.fragment, armFragments_eq_flatMap]
    exact (hcase.join (by decide) (iho fun b hb => hslot b (List.mem_append_right _ hb))).close (by decide)
  | @groupCount inner outer table copy hi ho _ _ =>
    let rows : Fragment _ := .name table :: .text " AS " :: .name copy :: .text " WHERE " ::
      (inner.fragment ++ Token.text " = " :: outer.fragment)
    have hwhere := hi.level.join (s := " = ") (by decide) ho.level
    have hlevel : rows.Level := (Fragment.Shifts.name 0 table).join (s := " AS ") (by decide)
      ((Fragment.Shifts.name 0 copy).join (s := " WHERE ") (by decide) hwhere)
    have hslots : ∀ b ∈ rows.slots, Balanced (x b) := by
      intro b hb
      simp only [rows, Fragment.slots_append, Fragment.slots_cons, Token.slots, List.nil_append,
        List.mem_append] at hb
      exact hb.elim (hinside hi b) (hinside ho b)
    have hcount : Fragment.FreeOf clauseKeywords x
        (Token.text "(SELECT COUNT(*) FROM " :: (rows ++ [Token.text ")"])) :=
      .called "" "SELECT COUNT(*) FROM " "" (by rfl) (by decide) (by decide) (by decide) (by decide) hlevel hslots
    simpa [Term.fragment, rows] using hcount
  | @subquery s hi ho hn hc hg hk hj hkeys _ _ _ _ _ _ =>
    have hs : (Term.subquery s).Built ok S := .subquery hi ho hn hc hg hk hj hkeys
    exact .parenthesized _ (Select.level_of_built hs) fun b hb =>
      hbalanced b (hs.of_mem_slots (Select.slots_subset_of_built hs hb))

end Terms

/-! ## Numbers -/

theorem words_digits {cs : List Char} (h : ∀ c ∈ cs, c.isDigit) (hne : cs ≠ []) :
    words (cs.map Lexeme.char) = [.plain (String.ofList cs)] := by
  have hblank : ∀ c ∈ cs, c ≠ ' ' := by
    rintro c hc rfl
    exact absurd (h ' ' hc) (by decide)
  induction cs with
  | nil => exact absurd rfl hne
  | cons c cs ih =>
    cases cs with
    | nil => simp [words, Lexeme.words_char (hblank c (by simp))]
    | cons d cs =>
      have hletter : ∀ e ∈ c :: d :: cs, (Lexeme.char e).isLetter := fun e he => by
        simp [Lexeme.isLetter, Lexer.isIdentifier, Char.isAlphanum, h e he]
      have hjoins : (Lexeme.char c).joins (.char d) := by
        simp [Lexeme.joins, hletter c (by simp), hletter d (by simp)]
      have hrest := ih (fun e he => h e (by simp [he])) (by simp) fun e he => hblank e (by simp [he])
      rw [List.map_cons] at hrest
      rw [List.map_cons, List.map_cons, words_cons_cons, if_pos hjoins, hrest, Lexeme.prolong]
      simp

theorem toUpper_digit {c : Char} (h : c.isDigit) : c.toUpper = c := by
  simp only [Char.isDigit, Bool.and_eq_true, decide_eq_true_eq, UInt32.le_iff_toNat_le, ge_iff_le] at h
  rw [Char.toUpper, dif_neg]
  simp only [UInt32.le_iff_toNat_le]
  have hnine : '9'.val.toNat < 'a'.val.toNat := by decide
  omega

/-- A number is no keyword. -/
theorem isFreeText_digits {s : String} (h : ∀ c ∈ s.toList, c.isDigit) (hne : s.toList ≠ []) :
    isFreeText ["WHERE"] s := by
  have hother : ∀ {k : String} {c : Char}, c ∈ k.toList → c.isDigit = false → s ≠ k := by
    rintro _ c hc hdigit rfl
    rw [h c hc] at hdigit
    cases hdigit
  rw [isFreeText_iff]
  refine ⟨[.word (.plain s)], ?_, ?_⟩
  · have hwords : words (textLexemes s) = [.plain s] := by
      have hplain : ∀ c ∈ s.toList, (Lexer.isIdentifier c || c == ' ') = true := fun c hc => by
        simp [Lexer.isIdentifier, Char.isAlphanum, h c hc]
      rw [textLexemes, Lexer.run_words hplain, Lexer.State.flush, List.append_nil, words_digits h hne,
        String.ofList_toList]
    have hopen : s ≠ "(" := hother (c := '(') (by simp) (by decide)
    have hclose : s ≠ ")" := hother (c := ')') (by simp) (by decide)
    rw [parts, hwords]
    simp [brackets, bracket, push, hopen, hclose]
  · have hsame : s.toList.map Char.toUpper = s.toList :=
      (List.map_congr_left fun c hc => toUpper_digit (h c hc)).trans (List.map_id _)
    have hword : s.toList ≠ "WHERE".toList := fun hs => hother (c := 'W') (by simp) (by decide) (String.toList_inj.1 hs)
    simpa [FreeOf, Part.isFree, Part.isWord, hsame] using hword

theorem isFreeText_toString (n : Nat) : isFreeText ["WHERE"] (toString n) :=
  isFreeText_digits (fun _ hc => isDigit_of_mem_toString hc) (by simp)

theorem isFreeText_limitText (n : Nat) : isFreeText ["WHERE"] (limitText n) := by
  unfold limitText
  split
  · decide
  · exact isFreeText_toString n

/-! ## Clauses -/

/-- Whether a text begins a clause. -/
def isClauseStart (s : String) : Bool :=
  isJoint ["WHERE"] s && (parts (textLexemes s)).any fun ps => ps.head?.any fun p => !p.isFree clauseKeywords

/-- The clauses behind the conditions: if there is anything, then it begins with
the keyword of a clause, and none of them is `WHERE`. -/
def Fragment.Continues (x : β → List Lexeme) (f : Fragment β) : Prop :=
  (f.flatMap (Token.lexemes x)).head?.all Lexeme.isLoose = true ∧
    ∃ ps, parts (f.flatMap (Token.lexemes x)) = some ps ∧ Sql.FreeOf ["WHERE"] ps ∧
      ps.head?.all (fun p => !p.isFree clauseKeywords) = true

/-- Lexemes that begin with a new word, if there are any. -/
theorem parts_append_of_all {l m : List Lexeme} {ps qs : List Part} (hl : parts l = some ps) (hm : parts m = some qs)
    (h : m.head?.all Lexeme.isLoose = true) : parts (l ++ m) = some (ps ++ qs) := by
  cases m with
  | nil =>
    cases hm
    simpa using hl
  | cons y m => exact parts_append_of_loose hl hm (by simpa using h)

namespace Fragment.Continues

variable {x : β → List Lexeme} {f g : Fragment β}

theorem nil (x : β → List Lexeme) : Continues x [] := ⟨rfl, [], rfl, rfl, rfl⟩

theorem append (hf : f.Continues x) (hg : g.Continues x) : Continues x (f ++ g) := by
  obtain ⟨hloose, ps, hps, hfree, hhead⟩ := hf
  obtain ⟨hloose', qs, hqs, hfree', hhead'⟩ := hg
  rw [Continues, List.flatMap_append]
  refine ⟨?_, ps ++ qs, parts_append_of_all hps hqs hloose', hfree.append hfree', ?_⟩
  · cases h : f.flatMap (Token.lexemes x) with
    | nil => exact hloose'
    | cons y l => simpa [h] using hloose
  · cases ps with
    | nil => exact hhead'
    | cons p ps => exact hhead

theorem cons {s : String} (hs : isClauseStart s) (hf : Fragment.FreeOf ["WHERE"] x f) : Continues x (.text s :: f) := by
  simp only [isClauseStart, isJoint, isTrail, Bool.and_eq_true] at hs
  obtain ⟨⟨⟨-, hloose⟩, hlead⟩, hclause⟩ := hs
  simp only [isLead, Bool.and_eq_true] at hlead
  obtain ⟨ps, hps, hfree⟩ := isFreeText_iff.1 hlead.1
  obtain ⟨qs, hqs, hfree'⟩ := hf
  rw [Continues, List.flatMap_cons, Token.lexemes]
  refine ⟨?_, ps ++ qs, parts_loose_append hps hqs hlead.2, hfree.append hfree', ?_⟩
  · cases h : textLexemes s with
    | nil => simp [h] at hloose
    | cons y l => simpa [h] using hloose
  · rw [hps, Option.any_some] at hclause
    cases ps with
    | nil => cases hclause
    | cons p ps => exact hclause

theorem listClause {keyword : String} (hk : isClauseStart keyword) {fs : List (Fragment β)}
    (h : ∀ f ∈ fs, Fragment.FreeOf ["WHERE"] x f) : Continues x (Frame.listClause keyword fs) := by
  unfold Frame.listClause
  split
  · exact nil x
  · exact cons hk (.separated (by decide) h)

end Fragment.Continues

/-- The parts of conditions, each in parentheses unless it is the only one. -/
def joined : List (List Part) → List Part
  | [ps] => ps
  | gs => connected "AND" gs

/-- The parts of a `WHERE` clause. -/
def whereParts (gs : List (List Part)) : List Part :=
  if gs.isEmpty then [] else .word (.plain "WHERE") :: joined gs

theorem Frame.parts_whereClause {x : β → List Lexeme} {fs : List (Fragment β)} {gs : List (List Part)}
    (h : List.Forall₂ (fun f ps => parts (f.flatMap (Token.lexemes x)) = some ps) fs gs) :
    parts ((Frame.whereClause fs).flatMap (Token.lexemes x)) = some (whereParts gs) := by
  have hkeyword : ∀ {f : Fragment β} {ps : List Part}, parts (f.flatMap (Token.lexemes x)) = some ps →
      parts (List.flatMap (Token.lexemes x) (.text " WHERE " :: f)) = some (.word (.plain "WHERE") :: ps) := by
    intro f ps hps
    have hword : parts (textLexemes " WHERE ") = some [.word (.plain "WHERE")] := rfl
    rw [List.flatMap_cons]
    exact parts_loose_append hword hps rfl
  cases h with
  | nil => rfl
  | cons hf hrest =>
    cases hrest with
    | nil => exact hkeyword hf
    | cons hf' hrest =>
      exact hkeyword (parts_connected (fun _ => rfl) rfl rfl rfl (.cons hf (.cons hf' hrest)) (by simp))

/-- The clauses in front of the conditions. -/
def Frame.lead (f : Frame β) : Fragment β :=
  (Token.text "SELECT " :: (if f.distinct then [Token.text "DISTINCT "] else []) ++ f.select) ++
    Token.text " FROM " :: f.source ++ f.joins.flatMap (Token.text " " :: ·)

/-- The clauses behind the conditions. -/
def Frame.rest (f : Frame β) : Fragment β :=
  listClause " GROUP BY " f.groupBy ++ listClause " ORDER BY " f.orderBy ++
    f.limit.elim [] (fun n => [Token.text " LIMIT ", Token.text n]) ++
    f.offset.elim [] (fun n => [Token.text " OFFSET ", Token.text (toString n)])

theorem Frame.statement_eq (f : Frame β) : f.statement = f.lead ++ (whereClause f.conditions ++ f.rest) := by
  unfold statement lead rest
  cases f.limit <;> cases f.offset <;> simp

theorem Frame.lead_freeOf {x : β → List Lexeme} {f : Frame β} (hselect : Fragment.FreeOf ["WHERE"] x f.select)
    (hsource : Fragment.FreeOf ["WHERE"] x f.source) (hjoins : ∀ j ∈ f.joins, Fragment.FreeOf ["WHERE"] x j) :
    Fragment.FreeOf ["WHERE"] x f.lead := by
  have hitems : Fragment.FreeOf ["WHERE"] x
      (Token.text "SELECT " :: (if f.distinct then [Token.text "DISTINCT "] else []) ++ f.select) := by
    split
    · exact .cons (by decide) (.cons (by decide) hselect)
    · exact .cons (by decide) hselect
  exact (hitems.join (by decide) hsource).append_flatMap fun j hj => ⟨.cons (by decide) (hjoins j hj), rfl⟩

theorem Frame.rest_continues {x : β → List Lexeme} {f : Frame β}
    (hgroups : ∀ g ∈ f.groupBy, Fragment.FreeOf ["WHERE"] x g)
    (horder : ∀ k ∈ f.orderBy, Fragment.FreeOf ["WHERE"] x k) (hlimit : ∀ s ∈ f.limit, isFreeText ["WHERE"] s) :
    f.rest.Continues x := by
  refine .append (.append (.append (.listClause (by decide) hgroups) (.listClause (by decide) horder)) ?_) ?_
  · cases h : f.limit with
    | none => exact .nil x
    | some n => exact .cons (by decide) (.text (hlimit n h))
  · cases f.offset with
    | none => exact .nil x
    | some n => exact .cons (by decide) (.text (isFreeText_toString n))

/-- **The clauses of a statement.** In front of its conditions and behind them is
no `WHERE`, and behind them begins another clause, if anything. -/
theorem Frame.parts_statement {x : β → List Lexeme} {f : Frame β} {gs : List (List Part)}
    (hlead : Fragment.FreeOf ["WHERE"] x f.lead)
    (hconditions : List.Forall₂ (fun c ps => parts (c.flatMap (Token.lexemes x)) = some ps) f.conditions gs)
    (hrest : f.rest.Continues x) :
    ∃ hs ts, parts (f.statement.flatMap (Token.lexemes x)) = some (hs ++ (whereParts gs ++ ts)) ∧
      FreeOf ["WHERE"] hs ∧ FreeOf ["WHERE"] ts ∧ ts.head?.all (fun p => !p.isFree clauseKeywords) = true := by
  obtain ⟨hs, hparts, hfree⟩ := hlead
  obtain ⟨hloose, ts, hparts', hfree', hstart⟩ := hrest
  refine ⟨hs, ts, ?_, hfree, hfree', hstart⟩
  rw [statement_eq, List.flatMap_append, List.flatMap_append]
  refine parts_append_of_all hparts (parts_append_of_all (parts_whereClause hconditions) hparts' hloose) ?_
  -- the conditions begin with a blank, and without them the other clauses follow
  cases h : f.conditions with
  | nil => exact hloose
  | cons c cs => cases cs <;> rfl

/-! ## Finding the conditions -/

/-- What is behind the first `WHERE`, up to the next clause. -/
def conditionParts (ps : List Part) : Option (List Part) :=
  match ps.dropWhile fun p => !p.isWord "WHERE" with
  | [] => none
  | _ :: rest => some (rest.takeWhile (Part.isFree clauseKeywords))

/-- The conditions of a statement, found in its parts. -/
theorem conditionParts_statement {hs ts : List Part} {gs : List (List Part)} (hlead : FreeOf ["WHERE"] hs)
    (hrest : FreeOf ["WHERE"] ts) (hstart : ts.head?.all (fun p => !p.isFree clauseKeywords) = true)
    (hgs : ∀ ps ∈ gs, FreeOf clauseKeywords ps) :
    conditionParts (hs ++ (whereParts gs ++ ts)) = if gs.isEmpty then none else some (joined gs) := by
  have hskip : ∀ {ps : List Part}, FreeOf ["WHERE"] ps → ∀ p ∈ ps, (!p.isWord "WHERE") = true := by
    intro ps h p hp
    simpa [Part.isFree] using List.all_eq_true.1 h p hp
  rw [conditionParts, List.dropWhile_append_of_pos (hskip hlead)]
  cases gs with
  | nil =>
    have hnone : ts.dropWhile (fun p => !p.isWord "WHERE") = [] := List.dropWhile_eq_nil_iff.2 (hskip hrest)
    rw [whereParts, List.isEmpty_nil, if_pos rfl, List.nil_append, hnone, if_pos rfl]
  | cons g gs =>
    have hword : (!(Part.word (.plain "WHERE")).isWord "WHERE") = false := by decide
    have hend : ts.takeWhile (Part.isFree clauseKeywords) = [] := by
      cases ts with
      | nil => rfl
      | cons t ts => simpa [List.takeWhile_cons] using hstart
    have hclause : FreeOf clauseKeywords (joined (g :: gs)) := by
      cases gs with
      | nil => exact hgs g (by simp)
      | cons g' gs => exact .connected (by decide) _
    rw [whereParts, List.isEmpty_cons, if_neg Bool.false_ne_true, if_neg Bool.false_ne_true, List.cons_append,
      List.dropWhile_cons, hword, if_neg Bool.false_ne_true]
    simp only
    rw [List.takeWhile_append_of_pos (List.all_eq_true.1 hclause), hend, List.append_nil]

theorem readCondition_joined {gs : List (List Part)} (hne : gs ≠ []) (hgs : ∀ ps ∈ gs, FreeOf clauseKeywords ps) :
    readCondition (joined gs) = .conj (gs.map readCondition) := by
  match gs, hne with
  | [ps], _ => rfl
  | ps :: qs :: gs, _ => exact readCondition_all (by simp) fun rs hrs => (hgs rs hrs).opensStatement

/-- **The conditions of a statement are read from its text**, one by one. -/
theorem Select.read_conditions {ok : Method → Nat → Nat → Prop} {S : β → Prop} {x : β → List Lexeme} {s : Select β}
    (h : (Term.subquery s).Built ok S) (hbalanced : ∀ b, S b → Balanced (x b))
    (hslots : s.All fun t => ∀ b ∈ t.bare, Fragment.FreeOf clauseKeywords x [.slot b])
    (hjoins : ∀ j ∈ s.joins, isFreeText ["WHERE"] j.keyword)
    (hkeys : ∀ k ∈ s.orderBy, isFreeText ["WHERE"] k.keyword) :
    ∃ (ps : List Part) (gs : List (List Part)), parts (s.frame.statement.flatMap (Token.lexemes x)) = some ps ∧
      s.conditions.map (fun t => parts (t.fragment.flatMap (Token.lexemes x))) = gs.map some ∧
      (conditionParts ps).map readCondition = if gs.isEmpty then none else some (.conj (gs.map readCondition)) := by
  cases h with
  | subquery hi ho hn hc hg hk _ _ =>
    have hsub : ["WHERE"] ⊆ clauseKeywords := by decide
    have hwhere : ∀ {t : Term β}, t.Built ok S → (∀ b ∈ t.bare, Fragment.FreeOf clauseKeywords x [.slot b]) →
        Fragment.FreeOf ["WHERE"] x t.fragment := fun ht hb => (ht.freeOf hbalanced hb).mono hsub
    have hlead : Fragment.FreeOf ["WHERE"] x s.frame.lead := by
      rw [Select.frame_eq]
      refine Frame.lead_freeOf (hwhere hi hslots.items) ?_ fun f hf => ?_
      · unfold Select.sourceFragment
        cases s.schema with
        | none => exact .name _ x _
        | some schema => exact (Fragment.FreeOf.name _ x schema).join (by decide) (.name _ x _)
      · obtain ⟨j, hj, rfl⟩ := List.mem_map.1 hf
        have hon := (hwhere (ho j hj) (hslots.joins j hj).1).join (s := " = ") (by decide)
          (hwhere (hn j hj) (hslots.joins j hj).2)
        have hline := (Fragment.FreeOf.text (x := x) (hjoins j hj)).join (s := " ") (by decide)
          ((Fragment.FreeOf.name _ x j.table).join (s := " ON ") (by decide) hon)
        simpa [JoinOn.fragment] using hline
    have hrest : s.frame.rest.Continues x := by
      rw [Select.frame_eq]
      refine Frame.rest_continues (fun f hf => ?_) (fun f hf => ?_) fun n hn => ?_
      · obtain ⟨t, ht, rfl⟩ := List.mem_map.1 hf
        exact hwhere (hg t ht) (hslots.groupBy t ht)
      · obtain ⟨k, hk', rfl⟩ := List.mem_map.1 hf
        exact (hwhere (hk k hk') (hslots.orderBy k hk')).join (by decide) (.text (hkeys k hk'))
      · obtain ⟨m, -, rfl⟩ := Option.mem_map.1 hn
        exact isFreeText_limitText m
    have hfree : ∀ t ∈ s.conditions, Fragment.FreeOf clauseKeywords x t.fragment :=
      fun t ht => (hc t ht).freeOf hbalanced (hslots.conditions t ht)
    choose! conditionOf hparts hclause using hfree
    have hconditions : List.Forall₂ (fun t g => parts (t.fragment.flatMap (Token.lexemes x)) = some g) s.conditions
        (s.conditions.map conditionOf) :=
      List.forall₂_map_right_iff.2 (List.forall₂_same.2 hparts)
    have hgs : ∀ g ∈ s.conditions.map conditionOf, FreeOf clauseKeywords g := by
      intro g hg
      obtain ⟨t, ht, rfl⟩ := List.mem_map.1 hg
      exact hclause t ht
    obtain ⟨hs, ts, hstatement, hheadfree, htailfree, hstart⟩ := Frame.parts_statement (f := s.frame) hlead (by
      rw [Select.frame_eq]
      exact List.forall₂_map_left_iff.2 hconditions) hrest
    refine ⟨_, s.conditions.map conditionOf, hstatement, ?_, ?_⟩
    · rw [List.map_map]
      exact List.map_congr_left hparts
    rw [conditionParts_statement hheadfree htailfree hstart hgs]
    split
    · rfl
    · rename_i hne
      exact congrArg some (readCondition_joined (by simpa using hne) hgs)

end ParamQuery.Sql
