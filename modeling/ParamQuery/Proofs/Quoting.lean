/-
Names stay in their quotes. A query has its tokens before it has its text: the
names and keys in it are tokens of their own, and what filters bring in are the
tokens of filters (`Query.TokenRun`). When the names of the parameters are
identifiers, reading the text of a compiled query gives these tokens back, each
name as one lexeme, with its parentheses balanced (`compile_keeps_quotes`).

In positional style the tokens of parameters are replaced in the text of a
filter. This takes place within each of its tokens (`replaceAll_tokens`), even
where one name begins another one, so no quote is touched; a name without the
sign of a parameter stays as it is.
-/
import ParamQuery.Proofs.Nesting
import ParamQuery.Proofs.QueryRuns

namespace ParamQuery.Text

variable {pattern replacement xs ys : List Char}

/-- What begins two texts on end begins the first one, unless it goes on with
the head of the second. -/
theorem isPrefix_of_append (h : ∀ c ∈ ys.head?, c ∉ pattern) (hp : pattern <+: xs ++ ys) : pattern <+: xs := by
  rcases List.prefix_or_prefix_of_prefix hp (List.prefix_append xs ys) with hx | ⟨rest, rfl⟩
  · exact hx
  · cases rest with
    | nil => simp
    | cons c rest =>
      obtain ⟨tail, htail⟩ := (List.prefix_append_right_inj xs).1 hp
      have hhead : c ∈ ys.head? := by simp [← htail]
      exact absurd (by simp) (h c hhead)

/-- Nothing is found across the end of a text when the pattern does not have
the next character. -/
theorem replaceFrom_append (h : ∀ c ∈ ys.head?, c ∉ pattern) {skip : Nat} (hskip : skip ≤ xs.length) :
    replaceFrom pattern replacement skip (xs ++ ys) =
      replaceFrom pattern replacement skip xs ++ replaceFrom pattern replacement 0 ys := by
  induction xs generalizing skip with
  | nil =>
    obtain rfl : skip = 0 := Nat.le_zero.1 hskip
    rfl
  | cons x xs ih =>
    cases skip with
    | succ skip => exact ih (Nat.le_of_succ_le_succ hskip)
    | zero =>
      have hsame : pattern.isPrefixOf (x :: xs ++ ys) = pattern.isPrefixOf (x :: xs) := by
        rw [Bool.eq_iff_iff, List.isPrefixOf_iff_prefix, List.isPrefixOf_iff_prefix]
        exact ⟨isPrefix_of_append h, fun hp => hp.trans (List.prefix_append _ _)⟩
      rw [List.cons_append, replaceFrom, replaceFrom, ← List.cons_append, hsame]
      split
      · rename_i hfound
        have hlength := (List.isPrefixOf_iff_prefix.1 hfound).length_le
        rw [List.length_cons] at hlength
        rw [ih (by omega), List.append_assoc]
      · rw [ih (Nat.zero_le _)]
        rfl

/-- Nothing comes in but the replacement. -/
theorem mem_replaceFrom {c : Char} {skip : Nat} (h : c ∈ replaceFrom pattern replacement skip xs) :
    c ∈ replacement ∨ c ∈ xs := by
  induction xs generalizing skip with
  | nil => cases h
  | cons x xs ih =>
    cases skip with
    | succ skip => exact (ih h).imp_right (List.mem_cons_of_mem x)
    | zero =>
      rw [replaceFrom] at h
      split at h
      · rcases List.mem_append.1 h with h | h
        · exact .inl h
        · exact (ih h).imp_right (List.mem_cons_of_mem x)
      · rcases List.mem_cons.1 h with rfl | h
        · exact .inr (by simp)
        · exact (ih h).imp_right (List.mem_cons_of_mem x)

end ParamQuery.Text

namespace ParamQuery.Sql

/-! ## Signs of parameters -/

/-- The characters of parameters: those of identifiers and the signs in front
of them. -/
def Lexer.isSign (c : Char) : Bool := isIdentifier c || c == '@' || c == '$'

/-- Whether a text could be one of parameters. -/
def isSigns (s : String) : Bool := s.toList.all Lexer.isSign

/-- A lexeme that such a text can have. -/
def Lexeme.isSign : Lexeme → Bool
  | .char c => Lexer.isSign c
  | .quoted _ _ => false
  | .parameter _ _ => true

/-- The states that such a text leads to. -/
def Lexer.State.isSigned : State → Bool
  | .outside => true
  | .naming sigil _ => isSign sigil
  | _ => false

theorem Lexer.start_signs {c : Char} (h : isSign c) :
    (∀ x ∈ (start c).1, x.isSign) ∧ (start c).2.isSigned := by
  have hquote : ¬(c = '"' ∨ c = '\'') := by
    rintro (rfl | rfl) <;> exact absurd h (by decide)
  unfold start
  rw [if_neg hquote]
  split
  · exact ⟨by simp, h⟩
  · exact ⟨by simpa [Lexeme.isSign] using h, rfl⟩

theorem Lexer.State.flush_signs {st : State} (h : st.isSigned) : ∀ x ∈ st.flush, x.isSign := by
  cases st with
  | outside => simp [State.flush]
  | inside quote read | closed quote read => cases h
  | naming sigil read =>
    cases read with
    | nil => simpa [State.flush, Lexeme.isSign, State.isSigned] using h
    | cons c read => simp [State.flush, Lexeme.isSign]

theorem Lexer.run_signs {cs : List Char} (h : ∀ c ∈ cs, isSign c) (st : State) (hst : st.isSigned) :
    (∀ x ∈ (run st cs).1, x.isSign) ∧ (run st cs).2.isSigned := by
  induction cs generalizing st with
  | nil => exact ⟨by simp [run], hst⟩
  | cons c cs ih =>
    have hstart := start_signs (h c (by simp))
    have hstep : (∀ x ∈ (step st c).1, x.isSign) ∧ (step st c).2.isSigned := by
      cases st with
      | outside => exact hstart
      | inside quote read | closed quote read => cases hst
      | naming sigil read =>
        rw [step]
        split
        · exact ⟨by simp, hst⟩
        · refine ⟨fun x hx => ?_, hstart.2⟩
          exact (List.mem_append.1 hx).elim (State.flush_signs hst x) (hstart.1 x)
    obtain ⟨hrest, hend⟩ := ih (fun d hd => h d (by simp [hd])) _ hstep.2
    refine ⟨fun x hx => ?_, hend⟩
    exact (List.mem_append.1 hx).elim (hstep.1 x) (hrest x)

theorem isSign_of_mem_textLexemes {s : String} (h : isSigns s) : ∀ x ∈ textLexemes s, x.isSign := by
  obtain ⟨hrun, hend⟩ := Lexer.run_signs (List.all_eq_true.1 h) .outside rfl
  intro x hx
  exact (List.mem_append.1 hx).elim (hrun x) (Lexer.State.flush_signs hend x)

theorem isReadable_of_isSigns {s : String} (h : isSigns s) : isReadable s := by
  have hend := (Lexer.run_signs (List.all_eq_true.1 h) .outside rfl).2
  unfold isReadable
  cases hst : (Lexer.run .outside s.toList).2 with
  | outside | naming sigil read => rfl
  | inside quote read | closed quote read =>
    rw [hst] at hend
    cases hend

theorem balanced_of_isSigns {s : String} (h : isSigns s) : Balanced (textLexemes s) := by
  refine balanced_of_forall fun x hx => ?_
  have hsign := isSign_of_mem_textLexemes h x hx
  constructor <;> (rintro rfl; exact absurd hsign (by decide))

theorem isSigns_append {s s' : String} (h : isSigns s) (h' : isSigns s') : isSigns (s ++ s') := by
  simp only [isSigns, String.toList_append, List.all_append, Bool.and_eq_true] at h h' ⊢
  exact ⟨h, h'⟩

theorem isSigns_replaceAll {pattern new s : String} (hnew : isSigns new) (hs : isSigns s) :
    isSigns (Text.replaceAll pattern new s) := by
  refine List.all_eq_true.2 fun c hc => ?_
  rw [Text.replaceAll, String.toList_ofList] at hc
  rcases Text.mem_replaceFrom hc with hc | hc
  · exact List.all_eq_true.1 hnew c hc
  · exact List.all_eq_true.1 hs c hc

/-! ## Replacing parameters -/

/-- Doubled quotes do not matter to a pattern without quotes. -/
theorem isPrefix_doubled {quote : Char} {pattern : List Char} (h : quote ∉ pattern) (cs : List Char) :
    pattern <+: doubled quote cs ↔ pattern <+: cs := by
  induction pattern generalizing cs with
  | nil => simp
  | cons a pattern ih =>
    simp only [List.mem_cons, not_or] at h
    cases cs with
    | nil => exact Iff.rfl
    | cons c cs =>
      rw [doubled]
      split
      · rename_i hc
        have hac : a ≠ c := fun hac => h.1 (hac.trans hc).symm
        simp [List.cons_prefix_cons, hac]
      · rw [List.cons_prefix_cons, List.cons_prefix_cons, ih h.2]

theorem doubled_of_notMem {quote : Char} {cs : List Char} (h : quote ∉ cs) (ds : List Char) :
    doubled quote (cs ++ ds) = cs ++ doubled quote ds := by
  induction cs with
  | nil => rfl
  | cons c cs ih =>
    simp only [List.mem_cons, not_or] at h
    rw [List.cons_append, doubled, if_neg (Ne.symm h.1), ih h.2, List.cons_append]

/-- Quotes are doubled before a replacement as well as behind it. -/
theorem replaceFrom_doubled {quote : Char} {pattern new : List Char} (hne : pattern ≠ []) (hp : quote ∉ pattern)
    (hnew : quote ∉ new) {skip : Nat} {cs : List Char} (hskip : quote ∉ cs.take skip) :
    Text.replaceFrom pattern new skip (doubled quote cs) = doubled quote (Text.replaceFrom pattern new skip cs) := by
  induction cs generalizing skip with
  | nil => rfl
  | cons c cs ih =>
    cases skip with
    | succ skip =>
      simp only [List.take_succ_cons, List.mem_cons, not_or] at hskip
      rw [doubled, if_neg (Ne.symm hskip.1)]
      exact ih hskip.2
    | zero =>
      have hpass : ∀ rest, Text.replaceFrom pattern new 0 (quote :: rest) =
          quote :: Text.replaceFrom pattern new 0 rest := by
        intro rest
        have hfound : ¬pattern.isPrefixOf (quote :: rest) := by
          rw [List.isPrefixOf_iff_prefix]
          cases pattern with
          | nil => exact absurd rfl hne
          | cons a pattern =>
            simp only [List.mem_cons, not_or] at hp
            simp [List.cons_prefix_cons, Ne.symm hp.1]
        rw [Text.replaceFrom, if_neg hfound]
      have ih₀ : Text.replaceFrom pattern new 0 (doubled quote cs) =
          doubled quote (Text.replaceFrom pattern new 0 cs) := ih (by simp)
      by_cases hc : c = quote
      · subst hc
        rw [doubled, if_pos rfl, hpass, hpass, hpass, doubled, if_pos rfl, ih₀]
      · have hsame : pattern.isPrefixOf (c :: doubled quote cs) = pattern.isPrefixOf (c :: cs) := by
          have hdoubled := isPrefix_doubled hp (c :: cs)
          rw [doubled, if_neg hc] at hdoubled
          rw [Bool.eq_iff_iff, List.isPrefixOf_iff_prefix, List.isPrefixOf_iff_prefix, hdoubled]
        rw [doubled, if_neg hc, Text.replaceFrom, hsame, Text.replaceFrom]
        split
        · rename_i hfound
          -- the rest of the occurrence has no quote either
          have hrest : quote ∉ cs.take (pattern.length - 1) := by
            obtain ⟨tail, htail⟩ := List.isPrefixOf_iff_prefix.1 hfound
            cases pattern with
            | nil => exact absurd rfl hne
            | cons a pattern =>
              obtain ⟨-, rfl⟩ := List.cons.inj htail
              simpa using fun hmem => hp (List.mem_cons_of_mem a hmem)
          rw [ih hrest, doubled_of_notMem hnew]
        · rw [doubled, if_neg hc, ih₀]

/-- Replacing a parameter in a quoted text, and in what is behind it. -/
theorem replaceFrom_enclose {quote : Char} {name new : String} (hname : quote ∉ '@' :: name.toList)
    (hnew : quote ∉ new.toList) (s : String) (rest : List Char) :
    Text.replaceFrom ('@' :: name.toList) new.toList 0 ((enclose quote s).toList ++ rest) =
      (enclose quote (Text.replaceAll ("@" ++ name) new s)).toList ++
        Text.replaceFrom ('@' :: name.toList) new.toList 0 rest := by
  have hquote : '@' ∉ [quote] := by
    rw [List.mem_singleton]
    exact fun h => hname (h ▸ List.mem_cons_self)
  have hinside : Text.replaceFrom ('@' :: name.toList) new.toList 0 (doubled quote s.toList ++ quote :: rest) =
      doubled quote (Text.replaceAll ("@" ++ name) new s).toList ++ quote ::
        Text.replaceFrom ('@' :: name.toList) new.toList 0 rest := by
    rw [Text.replaceFrom_append (by simpa using hname) (Nat.zero_le _),
      replaceFrom_doubled (List.cons_ne_nil _ _) hname hnew (by simp), Text.replaceAll, String.toList_ofList, toList_at]
    exact congrArg (doubled quote _ ++ ·) (Text.replaceFrom_plain hquote rest)
  simp only [enclose, String.toList_ofList, List.append_assoc, List.cons_append, List.nil_append]
  rw [← hinside]
  exact Text.replaceFrom_plain hquote _

/-- Where there is no sign of a parameter nothing is replaced. -/
theorem replaceAll_of_notMem {name s : String} (h : '@' ∉ s.toList) (new : String) :
    Text.replaceAll ("@" ++ name) new s = s := by
  have hplain : Text.replaceFrom ('@' :: name.toList) new.toList 0 (s.toList ++ []) = s.toList ++ [] :=
    Text.replaceFrom_plain h []
  rw [List.append_nil] at hplain
  rw [Text.replaceAll, toList_at, hplain, String.ofList_toList]

/-- A token with the texts in its quotes and its slots changed. -/
def Token.rewrite (mark : String → String) : Token String → Token String
  | .text s => .text s
  | .name s => .name (mark s)
  | .key s => .key (mark s)
  | .slot s => .slot (mark s)

theorem Fragment.Legible.rewrite {f : Fragment String} (h : f.Legible) (mark : String → String) :
    Fragment.Legible (f.map (Token.rewrite mark)) := by
  refine ⟨(List.isChain_map _).2 (h.spaced.imp fun t u htu => ?_), fun t ht => ?_⟩
  · cases t <;> cases u <;> exact htu
  · obtain ⟨u, hu, rfl⟩ := List.mem_map.1 ht
    have := h.whole u hu
    cases u <;> exact this

theorem Fragment.Shifts.rewrite {a b : Nat} {f : Fragment String} (h : f.Shifts a b) (mark : String → String) :
    Fragment.Shifts a b (f.map (Token.rewrite mark)) := by
  have hnest : ∀ (f : Fragment String) (a : Nat), nesting a ((f.map (Token.rewrite mark)).flatMap
      (Token.lexemes fun _ => [])) = nesting a (f.flatMap (Token.lexemes fun _ => [])) := by
    intro f
    induction f with
    | nil => exact fun a => rfl
    | cons t f ih =>
      intro a
      have ht : nesting a ((t.rewrite mark).lexemes fun _ => []) = nesting a (t.lexemes fun _ => []) := by
        cases t <;> rfl
      rw [List.map_cons, List.flatMap_cons, List.flatMap_cons, nesting_append, nesting_append, ht]
      exact congrArg _ (funext ih)
  rw [Shifts, hnest]
  exact h

theorem Fragment.slots_rewrite (mark : String → String) (f : Fragment String) :
    Fragment.slots (f.map (Token.rewrite mark)) = f.slots.map mark := by
  induction f with
  | nil => rfl
  | cons t f ih => cases t <;> simp [Token.rewrite, Token.slots, ih]

/-- **Replacing a parameter takes place within the tokens**, as it does in each
of their texts. -/
theorem replaceAll_tokens {f : Fragment String} {name new : String}
    (hname : ∀ c ∈ name.toList, Lexer.isIdentifier c) (hnew : isSigns new) (hf : f.Legible) :
    Text.replaceAll ("@" ++ name) new (Fragment.render f) =
      Fragment.render (f.map (Token.rewrite (Text.replaceAll ("@" ++ name) new))) := by
  suffices h : Text.replaceFrom ('@' :: name.toList) new.toList 0 (Fragment.render f).toList =
      (Fragment.render (f.map (Token.rewrite (Text.replaceAll ("@" ++ name) new)))).toList by
    rw [Text.replaceAll, toList_at, h, String.ofList_toList]
  have hquote : ∀ quote : Char, ¬Lexer.isSign quote → quote ∉ '@' :: name.toList ∧ quote ∉ new.toList := by
    intro quote hsign
    refine ⟨fun hmem => ?_, fun hmem => hsign (List.all_eq_true.1 hnew quote hmem)⟩
    rcases List.mem_cons.1 hmem with rfl | hmem
    · exact hsign (by decide)
    · exact hsign (by simp [Lexer.isSign, hname quote hmem])
  induction f with
  | nil => rfl
  | cons t f ih =>
    obtain ⟨hhead, htail⟩ := List.isChain_cons.1 hf.spaced
    have ih := ih ⟨htail, fun u hu => hf.whole u (by simp [hu])⟩
    simp only [List.map_cons, Fragment.render_cons, String.toList_append]
    cases t with
    | text s =>
      have hat : '@' ∉ s.toList := atSign_notMem_of_isWhole (hf.whole (.text s) (by simp))
      simp only [Token.rewrite, Token.render]
      rw [Text.replaceFrom_plain hat, ih]
    | name s =>
      obtain ⟨hpattern, hnew⟩ := hquote '"' (by decide)
      simp only [Token.rewrite, Token.render, quoteName]
      rw [replaceFrom_enclose hpattern hnew, ih]
    | key s =>
      obtain ⟨hpattern, hnew⟩ := hquote '\'' (by decide)
      simp only [Token.rewrite, Token.render, quoteKey]
      rw [replaceFrom_enclose hpattern hnew, ih]
    | slot s =>
      -- the token behind a slot begins with a delimiter, which is not in the name
      have hnext : ∀ c ∈ (Fragment.render f).toList.head?, c ∉ '@' :: name.toList := by
        intro c hc
        cases f with
        | nil => simp at hc
        | cons u f =>
          have hu : u.delimiter := hhead u (by simp) rfl
          cases u with
          | text s' =>
            obtain ⟨d, ds, hds, hd⟩ := isDelimiter_iff.1 hu
            have hcd : c = d := by simpa [Token.render, hds, eq_comm] using hc
            subst hcd
            have hat : '@' ∉ s'.toList := atSign_notMem_of_isWhole (hf.whole (.text s') (by simp))
            rw [List.mem_cons, not_or]
            refine ⟨fun hat' => hat (by simp [hds, hat']), fun hmem => ?_⟩
            simp [Lexer.delimits, hname c hmem] at hd
          | name s' | key s' | slot s' => cases hu
      simp only [Token.rewrite, Token.render]
      rw [Text.replaceFrom_append hnext (Nat.zero_le _), ih, Text.replaceAll, String.toList_ofList, toList_at]

/-! ## Quoted texts -/

/-- What stands in quotes, with the quotes it stands in. -/
def Lexeme.quote? : Lexeme → Option (Char × String)
  | .quoted quote content => some (quote, content)
  | _ => none

/-- The texts in quotes, in order. -/
def quotes (l : List Lexeme) : List (Char × String) := l.filterMap Lexeme.quote?

/-- The texts in quotes of a token: a name, a key, or those that a template
brings along. -/
def Token.quotes {β : Type} : Token β → List (Char × String)
  | .text s => Sql.quotes (textLexemes s)
  | .name s => [('"', s)]
  | .key s => [('\'', s)]
  | .slot _ => []

theorem quotes_append (l l' : List Lexeme) : quotes (l ++ l') = quotes l ++ quotes l' := List.filterMap_append

theorem quotes_of_isSigns {s : String} (h : isSigns s) : quotes (textLexemes s) = [] := by
  refine List.filterMap_eq_nil_iff.2 fun x hx => ?_
  have hsign := isSign_of_mem_textLexemes h x hx
  cases x with
  | quoted quote content => cases hsign
  | char c | parameter sigil name => rfl

/-- The texts in quotes of a fragment are those of its tokens. -/
theorem quotes_lexemes {f : Fragment String} (h : ∀ s ∈ f.slots, isSigns s) :
    quotes (f.flatMap (Token.lexemes textLexemes)) = f.flatMap Token.quotes := by
  induction f with
  | nil => rfl
  | cons t f ih =>
    have ht : quotes (t.lexemes textLexemes) = t.quotes := by
      cases t with
      | slot s => exact quotes_of_isSigns (h s (by simp [Token.slots]))
      | text s | name s | key s => rfl
    rw [List.flatMap_cons, List.flatMap_cons, quotes_append, ht, ih fun s hs => h s (by simp [hs])]

/-- Templates quote nothing but the wildcard. -/
theorem quotes_of_isWhole {s : String} (h : isWhole s) : ∀ p ∈ quotes (textLexemes s), p = ('\'', "%") := by
  simp only [isWhole, Bool.and_eq_true, List.all_eq_true] at h
  intro p hp
  obtain ⟨x, hx, hquote⟩ := List.mem_filterMap.1 hp
  have hplain := h.2 x hx
  cases x with
  | quoted quote content =>
    simp only [Lexeme.isPlain, Bool.and_eq_true, beq_iff_eq] at hplain
    cases hquote
    rw [hplain.1, hplain.2]
  | char c | parameter sigil name => cases hquote

end ParamQuery.Sql

namespace ParamQuery

open Sql

/-! ## Settled slots -/

/-- The tokens of a slot, whatever its parameters are called. `P` is what is
known of the filters in slots. -/
def Slot.Tokens (P : Filter → Table → Option String → Prop) : Slot → Fragment String → Prop
  | .value _ _, g => ∃ s, g = [.slot s]
  | .filter c, g => ∃ f table qualifier, c = Filter.command f table qualifier ∧ P f table qualifier ∧
      ∃ mark, g = (f.fragment table qualifier).map (Token.map mark)
  | .reject _, _ => False

/-- Tokens that make up the text of a slot. -/
structure Spelled (p : Slot × String) (g : Fragment String) : Prop where
  text : Fragment.render g = p.2
  legible : g.Legible
  level : g.Level
  signs : ∀ s ∈ g.slots, isSigns s
  marker : ∀ v asText, p.1 = .value v asText → ∃ sigil name, g.flatMap (Token.lexemes textLexemes) =
    [.parameter sigil name]

theorem IsIdentifier.isSigns {s : String} (h : IsIdentifier s) : isSigns s :=
  List.all_eq_true.2 fun c hc => by simp [Lexer.isSign, h.2 c hc]

theorem isSigns_toString (n : Nat) : isSigns (toString n) :=
  List.all_eq_true.2 fun c hc => by
    simp [Lexer.isSign, Lexer.isIdentifier, Char.isAlphanum, isDigit_of_mem_toString hc]

namespace Registry

/-- What names are made of does not change. -/
def Alike (r r' : Registry) : Prop := r'.style = r.style ∧ r'.stem = r.stem

theorem Alike.trans {r r₁ r₂ : Registry} (h : r.Alike r₁) (h' : r₁.Alike r₂) : r.Alike r₂ :=
  ⟨h'.1.trans h.1, h'.2.trans h.2⟩

theorem alike_add (r : Registry) (b : Binding) : r.Alike (r.add b).2 := ⟨rfl, rfl⟩

/-- The token of a new name. -/
theorem isSigns_token {r : Registry} (hstem : IsIdentifier r.stem) (b : Binding) :
    isSigns (r.token (r.add b).1) := by
  unfold Registry.token Registry.add Registry.nextName
  cases r.style with
  | named => exact isSigns_append (by decide) (isSigns_append hstem.isSigns (isSigns_toString _))
  | positional => exact isSigns_append (by decide) (isSigns_toString _)

/-- The token of a new name is read as one parameter. -/
theorem textLexemes_token {r : Registry} (hstem : IsIdentifier r.stem) (b : Binding) :
    ∃ sigil name, textLexemes (r.token (r.add b).1) = [.parameter sigil name] := by
  have hvalid : (r.style.marker (r.add b).1).Valid := by
    unfold Registry.add Registry.nextName
    cases r.style with
    | named => exact (hstem.append_toString _).marker_valid
    | positional => exact toString_marker_valid _
  rw [Registry.token_eq]
  exact ⟨_, _, hvalid.textLexemes⟩

/-- Taking over bindings changes the text of a command within its tokens only,
and not those without the sign of a parameter. -/
theorem absorb_tokens {es : List Entry} (hes : ∀ e ∈ es, IsIdentifier e.1) {r : Registry} (hstem : IsIdentifier r.stem)
    {f : Fragment String} (hf : f.Legible) (hsigns : ∀ s ∈ f.slots, isSigns s) :
    ∃ mark r', es.foldl absorbBinding (Fragment.render f, r) = (Fragment.render (f.map (Token.rewrite mark)), r') ∧
      r.Alike r' ∧ (∀ s ∈ f.slots, isSigns (mark s)) ∧
      ∀ s, (r.style = .positional → '@' ∉ s.toList) → mark s = s := by
  induction es generalizing r f with
  | nil =>
    have hid : f.map (Token.rewrite id) = f := by
      refine (List.map_congr_left fun t _ => ?_).trans (List.map_id f)
      cases t <;> rfl
    exact ⟨id, r, by rw [List.foldl_nil, hid], ⟨rfl, rfl⟩, hsigns, fun _ _ => rfl⟩
  | cons e es ih =>
    obtain ⟨name, b⟩ := e
    have hrest : ∀ e ∈ es, IsIdentifier e.1 := fun d hd => hes d (by simp [hd])
    cases hstyle : r.style with
    | named =>
      have hstep : absorbBinding (Fragment.render f, r) (name, b) =
          (Fragment.render f, { r with parameters := r.parameters.insert name b }) := by
        simp [absorbBinding, hstyle]
      rw [List.foldl_cons, hstep, ← hstyle]
      exact ih (r := { r with parameters := r.parameters.insert name b }) hrest hstem hf hsigns
    | positional =>
      -- the token of the name is replaced in every slot
      let replace := Text.replaceAll ("@" ++ name) ((r.add b).2.token (r.add b).1)
      have hnew : isSigns ((r.add b).2.token (r.add b).1) := by
        simpa [Registry.token, Registry.add] using isSigns_token hstem b
      have hstep : absorbBinding (Fragment.render f, r) (name, b) =
          (Fragment.render (f.map (Token.rewrite replace)), (r.add b).2) := by
        rw [← replaceAll_tokens (hes (name, b) (by simp)).2 hnew hf]
        simp only [absorbBinding, hstyle]
      have hslots : ∀ s ∈ Fragment.slots (f.map (Token.rewrite replace)), isSigns s := by
        rw [Fragment.slots_rewrite]
        intro s hs
        obtain ⟨s', hs', rfl⟩ := List.mem_map.1 hs
        exact isSigns_replaceAll hnew (hsigns s' hs')
      obtain ⟨mark, r', hfold, hlike, hmark, hplain⟩ := ih hrest (r := (r.add b).2) hstem (hf.rewrite _) hslots
      refine ⟨fun s => mark (replace s), r', ?_, (r.alike_add b).trans hlike, fun s hs => hmark _ ?_, fun s hs => ?_⟩
      · rw [List.foldl_cons, hstep, hfold, List.map_map]
        refine Prod.ext (congrArg Fragment.render (List.map_congr_left fun t _ => ?_)) rfl
        cases t <;> rfl
      · rw [Fragment.slots_rewrite]
        exact List.mem_map.2 ⟨s, hs, rfl⟩
      · have hsame : replace s = s := replaceAll_of_notMem (hs rfl) _
        exact (congrArg mark hsame).trans (hplain s fun _ => hs rfl)

end Registry

/-- Setting a name brings in no other one. -/
theorem Parameters.names_ofList_subset (bs : List Entry) : (Parameters.ofList bs).names ⊆ bs.map (·.1) := by
  have hset : ∀ (name : String) (b : Binding) (bs : List Entry), ∀ n ∈ (Parameters.setIn name b bs).map (·.1),
      n = name ∨ n ∈ bs.map (·.1) := by
    intro name b bs
    induction bs with
    | nil => simp [Parameters.setIn]
    | cons d bs ih =>
      intro n hn
      unfold Parameters.setIn at hn
      split at hn
      · exact .inr hn
      · rcases List.mem_cons.1 hn with rfl | hn
        · exact .inr (by simp)
        · exact (ih n hn).imp_right (List.mem_cons_of_mem _)
  have hfold : ∀ (bs : List Entry) (ps : Parameters),
      ∀ n ∈ (bs.foldl (fun ps (e : Entry) => ps.insert e.1 e.2) ps).names, n ∈ ps.names ∨ n ∈ bs.map (·.1) := by
    intro bs
    induction bs with
    | nil => exact fun ps n hn => .inl hn
    | cons e bs ih =>
      intro ps n hn
      rcases ih _ n hn with hn | hn
      · rcases hset e.1 e.2 ps.toList n hn with rfl | hn
        · exact .inr (by simp)
        · exact .inl hn
      · exact .inr (List.mem_cons_of_mem _ hn)
  intro n hn
  exact (hfold bs .empty n hn).resolve_left (by simp [Parameters.names, Parameters.empty])

/-- The signs of parameters are in the slots of a filter only, where they count. -/
def Filter.Contained (style : ParameterStyle) (f : Filter) (table : Table) (qualifier : Option String) : Prop :=
  style = .positional → (f.fragment table qualifier).Lacks '@'

/-- A filter whose parameters are identifiers. -/
def Filter.Named (f : Filter) (_ : Table) (_ : Option String) : Prop := ∀ n ∈ f.names, IsIdentifier n

section Settling

variable {P : Filter → Table → Option String → Prop}

/-- Settling a slot. -/
theorem Slot.settle_spelled {slot : Slot} {text : String} {r r' : Registry} (hstem : IsIdentifier r.stem)
    (hP : ∀ f table qualifier, P f table qualifier → f.Named table qualifier) (hslot : slot.Takes P)
    (hrun : slot.settle.runOn r = (.ok text, r')) :
    r.Alike r' ∧ ∃ g, Spelled (slot, text) g ∧
      ((∀ f table qualifier, P f table qualifier → f.Contained r.style table qualifier) → slot.Tokens P g) := by
  cases slot with
  | value v asText =>
    rw [Slot.settle_value] at hrun
    obtain ⟨rfl, rfl⟩ := Prod.mk.inj hrun |>.imp_left Except.ok.inj
    refine ⟨r.alike_add _, [.slot (r.token (r.add (boundAs v asText)).1)], ⟨?_, .slot _, .slot 0 _, ?_, ?_⟩,
      fun _ => ⟨_, rfl⟩⟩
    · simp [Token.render]
    · simpa [Token.slots] using Registry.isSigns_token hstem (boundAs v asText)
    · intro _ _ _
      obtain ⟨sigil, name, hlexemes⟩ := Registry.textLexemes_token hstem (boundAs v asText)
      exact ⟨sigil, name, by simpa [Token.lexemes] using hlexemes⟩
  | filter c =>
    obtain ⟨f, table, qualifier, rfl, hfilter⟩ := hslot
    have hnames := hP f table qualifier hfilter
    rw [Slot.settle_filter] at hrun
    obtain ⟨rfl, rfl⟩ := Prod.mk.inj hrun |>.imp_left Except.ok.inj
    have hentries : ∀ e ∈ (f.command table qualifier).parameters.toList, IsIdentifier e.1 := by
      intro e he
      refine hnames e.1 ?_
      rw [← Filter.bindings_names table qualifier]
      exact Parameters.names_ofList_subset _ (List.mem_map.2 ⟨e, he, rfl⟩)
    have hsigns : ∀ s ∈ (f.fragment table qualifier).slots, isSigns s := by
      intro s hs
      rw [Filter.slots_fragment] at hs
      obtain ⟨n, hn, rfl⟩ := List.mem_map.1 hs
      exact isSigns_append (by decide) (hnames n hn).isSigns
    obtain ⟨mark, r', hfold, hlike, hmark, hplain⟩ := Registry.absorb_tokens hentries hstem
      (f.fragment_legible table qualifier) hsigns
    have habsorb : r.absorb (f.command table qualifier) =
        (Fragment.render ((f.fragment table qualifier).map (Token.rewrite mark)), r') := hfold
    rw [habsorb]
    refine ⟨hlike, (f.fragment table qualifier).map (Token.rewrite mark), ⟨rfl,
      (f.fragment_legible table qualifier).rewrite mark, (f.fragment_level table qualifier).rewrite mark, ?_, ?_⟩,
      fun hcontained => ⟨f, table, qualifier, rfl, hfilter, mark, ?_⟩⟩
    · rw [Fragment.slots_rewrite]
      intro s hs
      obtain ⟨s', hs', rfl⟩ := List.mem_map.1 hs
      exact hmark s' hs'
    · rintro v asText ⟨⟩
    · refine List.map_congr_left fun t ht => ?_
      have hlacks := fun s hs hstyle => hcontained f table qualifier hfilter hstyle s hs
      cases t with
      | name s => exact congrArg Token.name (hplain s (hlacks s (.inl ht)))
      | key s => exact congrArg Token.key (hplain s (hlacks s (.inr ht)))
      | text s | slot s => rfl
  | reject e =>
    rw [Slot.settle_reject] at hrun
    cases hrun

/-- Settling slots one after another. -/
theorem Visits.spelled {r r' : Registry} {l : List (Slot × String)} (h : Visits Slot.settle r l r')
    (hstem : IsIdentifier r.stem) (hP : ∀ f table qualifier, P f table qualifier → f.Named table qualifier)
    (hslots : ∀ p ∈ l, p.1.Takes P) : ∀ p ∈ l, ∃ g, Spelled p g ∧
      ((∀ f table qualifier, P f table qualifier → f.Contained r.style table qualifier) → p.1.Tokens P g) := by
  induction h with
  | nil => simp
  | @cons slot text l r r₁ r₂ hb _ ih =>
    obtain ⟨⟨hstyle, hstem'⟩, hg⟩ := Slot.settle_spelled hstem hP (hslots (slot, text) (by simp)) hb
    intro p hp
    rcases List.mem_cons.1 hp with rfl | hp
    · exact hg
    · rw [← hstyle]
      exact ih (hstem' ▸ hstem) (fun p hp => hslots p (by simp [hp])) p hp

/-- A fragment of settled slots, with the tokens of the slots in their places. -/
theorem Spelled.splice {f : Fragment (Slot × String)} (hf : f.Legible) {spell : Slot × String → Fragment String}
    (h : ∀ p ∈ f.slots, Spelled p (spell p)) :
    Fragment.render (f.splice spell) = Fragment.render (f.map (Token.map Prod.snd)) ∧ (f.splice spell).Legible ∧
      ∀ s ∈ (f.splice spell).slots, isSigns s := by
  refine ⟨Fragment.render_splice fun p hp => (h p hp).text, hf.splice fun p hp => (h p hp).legible, ?_⟩
  rw [Fragment.slots_splice]
  intro s hs
  obtain ⟨p, hp, hs⟩ := List.mem_flatMap.1 hs
  exact (h p hp).signs s hs

end Settling

/-! ## Queries -/

/-- A filter of a query, or of a query inside it, with the table that it is a
condition on. -/
def Query.Filters (q : Query) (table : Table) (f : Filter) (t : Table) (qualifier : Option String) : Prop :=
  t = table ∧ ∃ p, Expr.subquery p ∈ (Expr.subquery q).subterms ∧ f ∈ p.filters ∧
    qualifier = some (p.tableName table)

/-- The tokens of a query: its statement, with the tokens of each slot in the
slot's place. -/
def Query.TokenRun (q : Query) (table : Table) (settings : Settings) (tokens : Fragment String) : Prop :=
  ∃ u : Select (Slot × Fragment String), u.map Prod.fst = q.emit (.ofSettings table settings none) ∧
    (∀ p ∈ u.slots, p.1.Tokens (q.Filters table) p.2) ∧ tokens = u.frame.statement.splice Prod.snd

theorem Query.named {q : Query} {table : Table} (hnames : ∀ n ∈ q.filterNames, IsIdentifier n) (f : Filter)
    (t : Table) (qualifier : Option String) (h : q.Filters table f t qualifier) : f.Named t qualifier := by
  obtain ⟨-, p, hp, hf, -⟩ := h
  exact fun n hn => hnames n (mem_filterNames hp hf hn)

/-- The filters of a query keep their parameters in their slots. -/
theorem Query.contained {q : Query} {table : Table} {style : ParameterStyle}
    (hsigns : style = .positional → q.SignFree table) (f : Filter) (t : Table) (qualifier : Option String)
    (h : q.Filters table f t qualifier) : f.Contained style t qualifier := by
  obtain ⟨rfl, p, hp, hf, rfl⟩ := h
  intro hstyle
  have hfree := hsigns hstyle
  refine f.fragment_lacks t _ (fun s hs => ?_) hfree.columns (hfree.paths p hp f hf)
  cases Option.mem_some_iff.1 hs
  unfold Query.tableName
  cases hsource : p.source.table with
  | none => exact hfree.tableName
  | some s => exact hfree.sources p hp s hsource

/-- **No name breaks out of its quotes.** Reading the text of a compiled query
ends outside of quotes, gives a lexeme for each name and key of the query's
tokens, with nothing else in quotes but the wildcards of templates, and leaves
no parenthesis open. -/
theorem compile_keeps_quotes {q : Query} {table : Table} {settings : Settings} {cmd : Command}
    (hstem : IsIdentifier settings.stem) (hnames : ∀ n ∈ q.filterNames, IsIdentifier n)
    (hsigns : settings.style = .positional → q.SignFree table) (h : q.compile table settings = .ok cmd) :
    ∃ tokens l, q.TokenRun table settings tokens ∧ Fragment.render tokens = cmd.text ∧ lex cmd.text = some l ∧
      l = tokens.flatMap (Token.lexemes textLexemes) ∧ Balanced l ∧ quotes l = tokens.flatMap Token.quotes ∧
      (∀ s, Token.text s ∈ tokens → ∀ p ∈ quotes (textLexemes s), p = ('\'', "%")) ∧
      ∀ s, Token.slot s ∈ tokens → isSigns s := by
  obtain ⟨u, r, hu, hv, hok⟩ | ⟨e, r, -, herr⟩ := q.compile_cases table settings
  swap
  · rw [herr] at h
    cases h
  rw [hok] at h
  cases h
  have hbuilt := Query.built_of_filters (P := q.Filters table) (fun hp _ hf => ⟨rfl, _, hp, hf, rfl⟩) hu
  choose! spell hspell using
    hv.spelled hstem (Query.named hnames) fun p hp => hbuilt.of_mem_slots hp
  have hstatement : ∀ p ∈ u.frame.statement.slots, Spelled p (spell p) :=
    fun p hp => (hspell p (Select.slots_subset_of_built hbuilt hp)).1
  obtain ⟨hrender, hlegible, hslots⟩ := Spelled.splice (Select.legible_of_built hbuilt) hstatement
  have htext : Fragment.render (u.frame.statement.splice spell) = (u.map Prod.snd).frame.render := by
    rw [hrender, Frame.render, Select.frame_map, Frame.statement_map]
  have hlevel : (u.frame.statement.splice spell).Level :=
    (Select.level_of_built hbuilt).splice fun p hp => (hstatement p hp).level
  refine ⟨u.frame.statement.splice spell, _, ⟨u.map fun p => (p.1, spell p), ?_, ?_, ?_⟩, htext, ?_, rfl, ?_,
    quotes_lexemes hslots, fun s hs => quotes_of_isWhole (hlegible.whole _ hs),
    fun s hs => hslots s (Fragment.mem_slots.2 hs)⟩
  · rw [Select.map_map]
    exact hu
  · rw [Select.slots_map]
    intro p hp
    obtain ⟨p', hp', rfl⟩ := List.mem_map.1 hp
    exact (hspell p' hp').2 (Query.contained hsigns)
  · rw [Select.frame_map, Frame.statement_map, Fragment.splice_map]
  · rw [← htext]
    exact hlegible.lex fun s hs => isReadable_of_isSigns (hslots s hs)
  · exact hlevel.lexemes fun s hs => balanced_of_isSigns (hslots s hs)

/-! ## Names that look like SQL -/

/-- A table with quotes and parentheses in its names. -/
def crookedTable : Table :=
  { schema := some "s.\"", name := "t\"; (", columns := ⟨[{ dbName := "c')\"", type := .jsonb }]⟩ }

/-- Conditions on it, one with two parameters that begin alike. -/
def crookedNames : Query where
  source := ⟨"", [], none, none⟩
  selector := none
  joins := []
  conditions := [.call .contains (some (.member none ["c')\"", "it's ("] .text)) [.constant (.string "x")]]
  filters := [.between "c')\".k'" ⟨"a", .int 1⟩ ⟨"ab", .int 2⟩]
  groupBy := []
  orderBy := []
  limit := none
  offset := none
  distinct := false
  count := true

theorem crookedNames_filterNames : crookedNames.filterNames = ["a", "ab"] := by
  decide

theorem crookedNames_signFree : crookedNames.SignFree crookedTable where
  tableName := by decide
  columns := by decide
  sources := by
    simp [crookedNames, Query.subterms, Source.subterms, optionSubterms, joinSubterms, listSubterms, sortSubterms,
      Expr.subterms, rootSubterms]
  paths := by
    simp [crookedNames, Query.subterms, Source.subterms, optionSubterms, joinSubterms, listSubterms, sortSubterms,
      Expr.subterms, rootSubterms, Filter.paths]

/-- The quoted texts of the query. -/
def crookedQuotes : List (Char × String) :=
  [('"', "s.\""), ('"', "t\"; ("), ('"', "t\"; ("), ('"', "c')\""), ('\'', "it's ("), ('\'', "%"), ('\'', "%"),
    ('"', "t\"; ("), ('"', "c')\""), ('\'', "k'")]

set_option maxRecDepth 10000 in
theorem crookedNames_quotes :
    ((crookedNames.compile crookedTable { style := .positional }).toOption.bind fun cmd => lex cmd.text).map quotes =
      some crookedQuotes := by
  decide +kernel

theorem crookedNames_keep_quotes :
    crookedNames.SignFree crookedTable ∧ ∃ cmd tokens l,
      crookedNames.compile crookedTable { style := .positional } = .ok cmd ∧
      crookedNames.TokenRun crookedTable { style := .positional } tokens ∧ lex cmd.text = some l ∧ Balanced l ∧
      tokens.flatMap Token.quotes = crookedQuotes := by
  have hquotes := crookedNames_quotes
  cases hc : crookedNames.compile crookedTable { style := .positional } with
  | error e =>
    rw [hc] at hquotes
    cases hquotes
  | ok cmd =>
    obtain ⟨tokens, l, hrun, -, hlex, -, hbalanced, hsame, -⟩ := compile_keeps_quotes (by decide)
      (by rw [crookedNames_filterNames]; decide) (fun _ => crookedNames_signFree) hc
    refine ⟨crookedNames_signFree, cmd, tokens, l, rfl, hrun, hlex, hbalanced, ?_⟩
    rw [hc] at hquotes
    simpa [Except.toOption, hlex, hsame] using hquotes

end ParamQuery
