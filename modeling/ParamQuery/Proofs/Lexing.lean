/-
SQL text read back. `lex` takes a text apart into quoted names and keys,
parameters, and the other characters one by one; what stands in quotes is never
read as a parameter. Nothing is lost: the texts of the lexemes make up the text
(`lex_text`).

A fragment is read back as its own tokens (`lex_render`) when it is `Spaced`:
behind a token that a following character could prolong, there is text that
begins with a delimiter.
-/
import ParamQuery.Proofs.TermFacts
import Mathlib.Data.List.Chain

namespace ParamQuery.Sql

/-! ## Lexemes -/

/-- A part of an SQL text, as a reader of the text sees it. -/
inductive Lexeme where
  | char (c : Char)
  /-- A text in quotes, its doubled quotes undone. -/
  | quoted (quote : Char) (content : String)
  /-- A parameter: `@` and a name, or `$` and a number. -/
  | parameter (sigil : Char) (name : String)
deriving DecidableEq

/-- The characters that a lexeme was read from. -/
def Lexeme.text : Lexeme → List Char
  | .char c => [c]
  | .quoted quote content => (enclose quote content).toList
  | .parameter sigil name => sigil :: name.toList

namespace Lexer

/-- The characters of identifiers: ASCII letters, digits and the underscore. -/
def isIdentifier (c : Char) : Bool := c.isAlphanum || c == '_'

/-- Whether a character prolongs the name of a parameter. -/
def continues (sigil c : Char) : Bool := if sigil = '$' then c.isDigit else isIdentifier c

/-- Where the lexer stands. The characters read are kept in reverse. -/
inductive State where
  | outside
  | inside (quote : Char) (read : List Char)
  /-- Behind a quote that ends the text in quotes, unless another one follows. -/
  | closed (quote : Char) (read : List Char)
  | naming (sigil : Char) (read : List Char)
deriving DecidableEq

/-- What has been read when nothing prolongs it. -/
def State.flush : State → List Lexeme
  | .outside => []
  | .inside _ _ => []
  | .closed quote read => [.quoted quote (String.ofList read.reverse)]
  | .naming sigil [] => [.char sigil]
  | .naming sigil (c :: read) => [.parameter sigil (String.ofList (c :: read).reverse)]

/-- Whether a quoted text is open. -/
def State.isInside : State → Bool
  | .inside _ _ => true
  | _ => false

/-- A character outside of quotes and parameters. -/
def start (c : Char) : List Lexeme × State :=
  if c = '"' ∨ c = '\'' then ([], .inside c [])
  else if c = '@' ∨ c = '$' then ([], .naming c [])
  else ([.char c], .outside)

/-- Read a character: what has come to its end by it, and the state behind it. -/
def step : State → Char → List Lexeme × State
  | .outside, c => start c
  | .inside quote read, c => ([], if c = quote then .closed quote read else .inside quote (c :: read))
  | .closed quote read, c =>
    if c = quote then ([], .inside quote (c :: read))
    else ((State.closed quote read).flush ++ (start c).1, (start c).2)
  | .naming sigil read, c =>
    if continues sigil c then ([], .naming sigil (c :: read))
    else ((State.naming sigil read).flush ++ (start c).1, (start c).2)

/-- Read the characters one after another. -/
def run : State → List Char → List Lexeme × State
  | st, [] => ([], st)
  | st, c :: cs => ((step st c).1 ++ (run (step st c).2 cs).1, (run (step st c).2 cs).2)

/-- The lexemes at the end of the text, none when quotes are still open. -/
def finish (l : List Lexeme) (st : State) : Option (List Lexeme) :=
  if st.isInside then none else some (l ++ st.flush)

theorem run_append (st : State) (cs ds : List Char) :
    run st (cs ++ ds) = ((run st cs).1 ++ (run (run st cs).2 ds).1, (run (run st cs).2 ds).2) := by
  induction cs generalizing st with
  | nil => rfl
  | cons c cs ih => simp only [List.cons_append, run, ih, List.append_assoc]

end Lexer

/-- The lexemes of a text, `none` when it ends inside quotes. -/
def lex (s : String) : Option (List Lexeme) :=
  Lexer.finish (Lexer.run .outside s.toList).1 (Lexer.run .outside s.toList).2

/-! ## Nothing is lost -/

namespace Lexer

theorem doubled_append (quote : Char) (cs ds : List Char) :
    doubled quote (cs ++ ds) = doubled quote cs ++ doubled quote ds := by
  induction cs with
  | nil => rfl
  | cons c cs ih => by_cases h : c = quote <;> simp [doubled, h, ih]

/-- The characters that a state stands behind. -/
def State.pending : State → List Char
  | .outside => []
  | .inside quote read => quote :: doubled quote read.reverse
  | .closed quote read => quote :: doubled quote read.reverse ++ [quote]
  | .naming sigil read => sigil :: read.reverse

theorem State.flush_text {st : State} (h : st.isInside = false) :
    st.flush.flatMap Lexeme.text = st.pending := by
  cases st with
  | outside => rfl
  | inside quote read => simp [State.isInside] at h
  | closed quote read => simp [State.flush, Lexeme.text, State.pending, enclose]
  | naming sigil read => cases read <;> simp [State.flush, Lexeme.text, State.pending]

theorem start_text (c : Char) : (start c).1.flatMap Lexeme.text ++ (start c).2.pending = [c] := by
  unfold start
  split
  · rfl
  · split <;> rfl

theorem step_text (st : State) (c : Char) :
    (step st c).1.flatMap Lexeme.text ++ (step st c).2.pending = st.pending ++ [c] := by
  -- what ends a quoted text or a name is read as outside of it
  have hstart : ∀ st : State, st.isInside = false →
      (st.flush ++ (start c).1).flatMap Lexeme.text ++ (start c).2.pending = st.pending ++ [c] := by
    intro st hst
    rw [List.flatMap_append, List.append_assoc, start_text, State.flush_text hst]
  cases st with
  | outside => exact start_text c
  | inside quote read =>
    by_cases h : c = quote
    · simp [step, h, State.pending]
    · simp [step, h, State.pending, doubled_append, doubled]
  | closed quote read =>
    by_cases h : c = quote
    · simp [step, h, State.pending, doubled_append, doubled]
    · simp only [step, h, if_false]
      exact hstart _ rfl
  | naming sigil read =>
    by_cases h : continues sigil c
    · simp [step, h, State.pending]
    · simp only [step, h]
      exact hstart _ rfl

theorem run_text (st : State) (cs : List Char) :
    (run st cs).1.flatMap Lexeme.text ++ (run st cs).2.pending = st.pending ++ cs := by
  induction cs generalizing st with
  | nil => simp [run]
  | cons c cs ih =>
    simp only [run, List.flatMap_append, List.append_assoc, ih]
    rw [← List.append_assoc, step_text]
    simp

end Lexer

/-- The texts of the lexemes make up the text that was read. -/
theorem lex_text {s : String} {l : List Lexeme} (h : lex s = some l) :
    l.flatMap Lexeme.text = s.toList := by
  have hrun := Lexer.run_text .outside s.toList
  unfold lex Lexer.finish at h
  split at h
  · cases h
  · rename_i hin
    cases h
    rw [List.flatMap_append, Lexer.State.flush_text (by simpa using hin), hrun]
    rfl

/-! ## Tokens read back -/

namespace Lexer

/-- A character that ends whatever stands in front of it. -/
def delimits (c : Char) : Bool := !isIdentifier c && c != '"' && c != '\''

theorem continues_of_delimits {c : Char} (h : delimits c) (sigil : Char) : continues sigil c = false := by
  have hc : isIdentifier c = false := by
    simp only [delimits, Bool.and_eq_true, Bool.not_eq_true'] at h
    exact h.1.1
  unfold continues
  split
  · simp only [isIdentifier, Char.isAlphanum, Bool.or_eq_false_iff] at hc
    exact hc.1.2
  · exact hc

theorem ne_quote_of_delimits {c : Char} (h : delimits c) : c ≠ '"' ∧ c ≠ '\'' := by
  simp only [delimits, Bool.and_eq_true, bne_iff_ne] at h
  exact ⟨h.1.2, h.2⟩

/-- The states in which a lexer can stand between two tokens. -/
def State.isBetween : State → Bool
  | .outside => true
  | .inside _ _ => false
  | .closed quote _ => quote == '"' || quote == '\''
  | .naming _ _ => true

theorem State.isInside_of_isBetween {st : State} (h : st.isBetween) : st.isInside = false := by
  cases st with
  | inside quote read => cases h
  | outside | closed quote read | naming sigil read => rfl

/-- A delimiter ends what has been read. -/
theorem run_of_delimits {st : State} (h : st.isBetween) {c : Char} (hc : delimits c) (cs : List Char) :
    run st (c :: cs) = (st.flush ++ (run .outside (c :: cs)).1, (run .outside (c :: cs)).2) := by
  have hstep : step st c = (st.flush ++ (start c).1, (start c).2) := by
    cases st with
    | outside => rfl
    | inside quote read => cases h
    | closed quote read =>
      have hne : c ≠ quote := by
        obtain ⟨h₁, h₂⟩ := ne_quote_of_delimits hc
        simp only [State.isBetween, Bool.or_eq_true, beq_iff_eq] at h
        rcases h with rfl | rfl
        · exact h₁
        · exact h₂
      simp only [step, hne, if_false]
    | naming sigil read => simp [step, continues_of_delimits hc]
  simp only [run, hstep, List.append_assoc]
  rfl

theorem run_doubled (quote : Char) (read cs : List Char) :
    run (.inside quote read) (doubled quote cs) = ([], .inside quote (cs.reverse ++ read)) := by
  induction cs generalizing read with
  | nil => rfl
  | cons c cs ih =>
    by_cases h : c = quote
    · subst h
      simp [doubled, run, step, ih]
    · simp [doubled, run, step, h, ih]

/-- A text in quotes is read as a whole. -/
theorem run_enclose {quote : Char} (h : quote = '"' ∨ quote = '\'') (s : String) :
    run .outside (enclose quote s).toList = ([], .closed quote s.toList.reverse) := by
  have hstart : start quote = ([], .inside quote []) := by simp [start, h]
  simp [enclose, run, step, hstart, run_append, run_doubled]

theorem run_naming {sigil : Char} {cs : List Char} (h : ∀ c ∈ cs, continues sigil c) (read : List Char) :
    run (.naming sigil read) cs = ([], .naming sigil (cs.reverse ++ read)) := by
  induction cs generalizing read with
  | nil => rfl
  | cons c cs ih =>
    have hc : continues sigil c := h c (by simp)
    simp [run, step, hc, ih fun d hd => h d (by simp [hd])]

end Lexer

/-- A parameter as it is written. -/
structure Marker where
  sigil : Char
  name : String
deriving DecidableEq

namespace Marker

/-- The marker as it is written: the sigil and the name. -/
def text (m : Marker) : String := String.ofList (m.sigil :: m.name.toList)

/-- A marker that is read back as one. -/
structure Valid (m : Marker) : Prop where
  sigil : m.sigil = '@' ∨ m.sigil = '$'
  nonempty : m.name.toList ≠ []
  continues : ∀ c ∈ m.name.toList, Lexer.continues m.sigil c

end Marker

section Tokens

variable {β γ : Type}

/-- What a text of keywords, operators and punctuation is read as. -/
def textLexemes (s : String) : List Lexeme :=
  (Lexer.run .outside s.toList).1 ++ (Lexer.run .outside s.toList).2.flush

/-- Whether a lexeme is a character, or the wildcard of a pattern in quotes. -/
def Lexeme.isPlain : Lexeme → Bool
  | .char _ => true
  | .quoted quote content => quote == '\'' && content == "%"
  | .parameter _ _ => false

/-- Whether a text can be read on its own: quotes that it opens it closes, there
are no parameters in it, and it quotes nothing but the wildcard. -/
def isWhole (s : String) : Bool :=
  ((Lexer.run .outside s.toList).2.isBetween && s.toList.all fun c => c != '@' && c != '$') &&
    (textLexemes s).all Lexeme.isPlain

/-- Whether a following character could prolong what the text ends with. -/
def isTight (s : String) : Bool := decide ((Lexer.run .outside s.toList).2 ≠ .outside)

/-- Whether the text begins with a delimiter. -/
def isDelimiter (s : String) : Bool :=
  match s.toList with
  | [] => false
  | c :: _ => Lexer.delimits c

namespace Token

/-- The lexemes of a token, given those of its slots. -/
def lexemes (g : β → List Lexeme) : Token β → List Lexeme
  | .text s => textLexemes s
  | .name s => [.quoted '"' s]
  | .key s => [.quoted '\'' s]
  | .slot b => g b

/-- Whether a following character could prolong what the token ends with. -/
def tight : Token β → Bool
  | .text s => isTight s
  | _ => true

/-- Whether the token begins with a delimiter. -/
def delimiter : Token β → Bool
  | .text s => isDelimiter s
  | _ => false

/-- Whether the token can be read on its own; slots are looked at elsewhere. -/
def whole : Token β → Bool
  | .text s => isWhole s
  | _ => true

end Token

namespace Fragment

/-- No token runs into the next one. -/
def Spaced (f : Fragment β) : Prop := f.IsChain fun a b => a.tight → b.delimiter

/-- Every token can be read on its own. -/
def Whole (f : Fragment β) : Prop := ∀ t ∈ f, t.whole

/-- The lexemes of a fragment whose slots are parameters. -/
def lexemes (f : Fragment Marker) : List Lexeme := f.flatMap (Token.lexemes fun m => [.parameter m.sigil m.name])

end Fragment

theorem Marker.Valid.run {m : Marker} (h : m.Valid) :
    Lexer.run .outside m.text.toList = ([], .naming m.sigil m.name.toList.reverse) := by
  have hstart : Lexer.start m.sigil = ([], .naming m.sigil []) := by
    rcases h.sigil with h | h <;> simp [Lexer.start, h]
  simp [Marker.text, Lexer.run, Lexer.step, hstart, Lexer.run_naming h.continues]

/-- A marker is read as a parameter. -/
theorem Marker.Valid.textLexemes {m : Marker} (h : m.Valid) :
    textLexemes m.text = [.parameter m.sigil m.name] := by
  rw [Sql.textLexemes, h.run]
  cases hr : m.name.toList.reverse with
  | nil => exact absurd (List.reverse_eq_nil_iff.1 hr) h.nonempty
  | cons c cs => simp [Lexer.State.flush, ← hr]

/-- Whether a text in a slot can be read on its own. -/
def isReadable (s : String) : Bool := (Lexer.run .outside s.toList).2.isBetween

/-- A token is read as its lexemes, from the outside. -/
theorem run_token {t : Token String} (ht : t.whole) (hm : ∀ s, t = .slot s → isReadable s) :
    ∃ l st, Lexer.run .outside t.render.toList = (l, st) ∧ st.isBetween ∧
      l ++ st.flush = t.lexemes textLexemes ∧ (t.tight = false → st = .outside) := by
  cases t with
  | text s =>
    have hwhole : isWhole s := ht
    simp only [isWhole, Bool.and_eq_true] at hwhole
    refine ⟨_, _, rfl, hwhole.1.1, rfl, fun h => ?_⟩
    have hend : (Lexer.run .outside s.toList).2 = .outside := by simpa [Token.tight, isTight] using h
    exact hend
  | name s =>
    refine ⟨_, _, Lexer.run_enclose (.inl rfl) s, rfl, ?_, fun h => by cases h⟩
    simp [Lexer.State.flush, Token.lexemes]
  | key s =>
    refine ⟨_, _, Lexer.run_enclose (.inr rfl) s, rfl, ?_, fun h => by cases h⟩
    simp [Lexer.State.flush, Token.lexemes]
  | slot s => exact ⟨_, _, rfl, hm s rfl, rfl, fun h => by cases h⟩

theorem isDelimiter_iff {s : String} : isDelimiter s ↔ ∃ c cs, s.toList = c :: cs ∧ Lexer.delimits c := by
  unfold isDelimiter
  cases s.toList <;> simp

/-- A spaced fragment, read behind what a state has read already. -/
theorem run_render {f : Fragment String} (hs : f.Spaced) (hw : f.Whole) (hm : ∀ s, Token.slot s ∈ f → isReadable s)
    (st : Lexer.State) (hst : st.isBetween) (hhead : st = .outside ∨ ∀ t ∈ f.head?, t.delimiter) :
    ∃ l st', Lexer.run st (Fragment.render f).toList = (l, st') ∧
      st'.isBetween ∧ l ++ st'.flush = st.flush ++ f.flatMap (Token.lexemes textLexemes) := by
  induction f generalizing st with
  | nil => exact ⟨[], st, rfl, hst, by simp⟩
  | cons t f ih =>
    obtain ⟨l, st₁, hrun, hb₁, hl, htight⟩ := run_token (hw t (by simp)) fun s h => hm s (by simp [h])
    have hchain := List.isChain_cons.1 hs
    have hhead₁ : st₁ = .outside ∨ ∀ u ∈ f.head?, u.delimiter := by
      by_cases h : t.tight = false
      · exact .inl (htight h)
      · exact .inr fun u hu => hchain.1 u hu (by simpa using h)
    obtain ⟨l', st₂, hrun', hb₂, hl'⟩ :=
      ih hchain.2 (fun u hu => hw u (by simp [hu])) (fun s h => hm s (by simp [h])) st₁ hb₁ hhead₁
    rw [List.flatMap_cons, ← hl]
    rcases hhead with rfl | hdel
    · refine ⟨l ++ l', st₂, ?_, hb₂, ?_⟩
      · simp only [Fragment.render_cons, String.toList_append, Lexer.run_append, hrun, hrun']
      · rw [List.append_assoc, hl']
        simp [Lexer.State.flush]
    · -- the token begins with a delimiter, which ends what was read before it
      have ht : t.delimiter := hdel t (by simp)
      cases t with
      | text s =>
        obtain ⟨c, cs, hcs, hc⟩ := isDelimiter_iff.1 ht
        refine ⟨st.flush ++ l ++ l', st₂, ?_, hb₂, ?_⟩
        · simp only [Token.render, hcs] at hrun
          simp only [Fragment.render_cons, String.toList_append, Token.render, hcs,
            Lexer.run_append, Lexer.run_of_delimits hst hc, hrun, hrun']
        · rw [List.append_assoc, List.append_assoc, hl']
          simp
      | name s | key s | slot s => cases ht

/-- **A spaced fragment is read back token by token.** -/
theorem lex_render {f : Fragment String} (hs : f.Spaced) (hw : f.Whole)
    (hm : ∀ s, Token.slot s ∈ f → isReadable s) :
    lex (Fragment.render f) = some (f.flatMap (Token.lexemes textLexemes)) := by
  obtain ⟨l, st, hrun, hb, hl⟩ := run_render hs hw hm .outside rfl (.inl rfl)
  simp only [lex, hrun, Lexer.finish, Lexer.State.isInside_of_isBetween hb, Bool.false_eq_true, if_false, hl]
  rfl

end Tokens

end ParamQuery.Sql
