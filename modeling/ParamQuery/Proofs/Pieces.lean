/-
Text with values in it. A `Piece` is a character of SQL or a bound value; a
command is read as pieces by putting the binding of each parameter in the place
of its token (`Command.pieces`). `Symbol`s are lexemes with bindings for
parameters, from which the pieces can be had. A legible fragment whose slots are
bound parameters gives its own symbols (`symbols_of_legible`), and the parameters
in its text are its slots (`markers_of_legible`).
-/
import ParamQuery.Param.Command
import ParamQuery.Proofs.FragmentFacts
import Mathlib.Data.List.Basic

namespace ParamQuery

open Sql

/-- A part of a text in which values stand where their parameters were. -/
inductive Piece where
  | char (c : Char)
  | value (b : Binding)

/-- Text without values. -/
def plain (cs : List Char) : List Piece := cs.map .char

/-- A lexeme with the binding in the place of the parameter, if it is the token
of a binding. -/
def Sql.Lexeme.place (sigil : Char) (ps : Parameters) : Lexeme → List Piece
  | .parameter s name =>
    match if s = sigil then ps.get? name else none with
    | some b => [.value b]
    | none => plain (s :: name.toList)
  | l => plain l.text

/-- The text of a command with values in it. -/
def Command.pieces (sigil : Char) (c : Command) : Option (List Piece) :=
  (lex c.text).map fun l => l.flatMap (Lexeme.place sigil c.parameters)

/-- A lexeme in which a binding may stand for its parameter. -/
inductive Symbol where
  | char (c : Char)
  | quoted (quote : Char) (content : String)
  | value (b : Binding)
  /-- A parameter without a binding. -/
  | unbound (sigil : Char) (name : String)

/-- What a symbol is written as. -/
def Symbol.pieces : Symbol → List Piece
  | .char c => plain [c]
  | .quoted quote content => plain (enclose quote content).toList
  | .value b => [.value b]
  | .unbound sigil name => plain (sigil :: name.toList)

/-- A lexeme with the binding for the parameter, if it is the token of a
binding. -/
def Sql.Lexeme.bound (sigil : Char) (ps : Parameters) : Lexeme → Symbol
  | .char c => .char c
  | .quoted quote content => .quoted quote content
  | .parameter s name =>
    match if s = sigil then ps.get? name else none with
    | some b => .value b
    | none => .unbound s name

theorem Sql.Lexeme.pieces_bound (sigil : Char) (ps : Parameters) (x : Lexeme) :
    (x.bound sigil ps).pieces = x.place sigil ps := by
  cases x with
  | parameter s name =>
    simp only [Lexeme.bound, Lexeme.place]
    split <;> rfl
  | char c | quoted quote content => rfl

theorem flatMap_place (sigil : Char) (ps : Parameters) (l : List Lexeme) :
    l.flatMap (Lexeme.place sigil ps) = (l.map (Lexeme.bound sigil ps)).flatMap Symbol.pieces := by
  rw [List.flatMap_map]
  exact List.flatMap_congr fun x _ => (x.pieces_bound sigil ps).symm

/-- The lexemes of a command with values in them. -/
def Command.symbols (sigil : Char) (c : Command) : Option (List Symbol) :=
  (lex c.text).map fun l => l.map (Lexeme.bound sigil c.parameters)

theorem Command.pieces_eq (sigil : Char) (c : Command) :
    c.pieces sigil = (c.symbols sigil).map fun l => l.flatMap Symbol.pieces := by
  rw [Command.pieces, Command.symbols, Option.map_map]
  exact congrArg (Option.map · (lex c.text)) (funext fun l => flatMap_place sigil c.parameters l)

/-- The parameters among lexemes. -/
def Sql.Lexeme.marker? : Lexeme → Option Marker
  | .parameter sigil name => some ⟨sigil, name⟩
  | _ => none

/-- The parameters in a text, from left to right. -/
def markers (l : List Lexeme) : List Marker := l.filterMap Lexeme.marker?

/-! ## Pieces of fragments -/

section Pieces

variable {β γ : Type}

/-- The characters of a token, and what its slot stands for. -/
def Sql.Token.pieces (g : β → List Piece) : Token β → List Piece
  | .text s => plain s.toList
  | .name s => plain (quoteName s).toList
  | .key s => plain (quoteKey s).toList
  | .slot b => g b

/-- The text of a fragment, given the pieces of its slots. -/
def Sql.Fragment.pieces (g : β → List Piece) (f : Fragment β) : List Piece := f.flatMap (Token.pieces g)

namespace Sql.Fragment

@[simp] theorem pieces_nil (g : β → List Piece) : pieces g [] = [] := rfl

@[simp] theorem pieces_cons (g : β → List Piece) (t : Token β) (f : Fragment β) :
    pieces g (t :: f) = t.pieces g ++ pieces g f := rfl

@[simp] theorem pieces_append (g : β → List Piece) (f f' : Fragment β) :
    pieces g (f ++ f') = pieces g f ++ pieces g f' := by
  simp [pieces]

theorem pieces_map (g : γ → List Piece) (h : β → γ) (f : Fragment β) :
    pieces g (f.map (Token.map h)) = pieces (fun b => g (h b)) f := by
  induction f with
  | nil => rfl
  | cons t f ih => cases t <;> simp [Token.map, Token.pieces, ih]

theorem pieces_splice (g : γ → List Piece) (h : β → Fragment γ) (f : Fragment β) :
    pieces g (splice h f) = pieces (fun b => pieces g (h b)) f := by
  induction f with
  | nil => rfl
  | cons t f ih => cases t <;> simp [splice_cons, Token.splice, Token.pieces, ih]

theorem pieces_congr {g h : β → List Piece} {f : Fragment β} (H : ∀ b ∈ f.slots, g b = h b) :
    pieces g f = pieces h f := by
  induction f with
  | nil => rfl
  | cons t f ih =>
    have ih := ih fun b hb => H b (by simp [hb])
    cases t with
    | slot b =>
      have hb := H b (by simp [Token.slots])
      simp [Token.pieces, ih, hb]
    | text s | name s | key s => simp [Token.pieces, ih]

end Sql.Fragment

end Pieces

/-! ## Reading pieces -/

namespace Sql

/-- No parameter is read from a text without the signs of parameters. -/
theorem Lexer.run_plain (st : Lexer.State) {cs : List Char} (h : ∀ c ∈ cs, c ≠ '@' ∧ c ≠ '$')
    (hst : ∀ sigil read, st ≠ .naming sigil read) :
    (∀ l ∈ (Lexer.run st cs).1, l.marker? = none) ∧ ∀ sigil read, (Lexer.run st cs).2 ≠ .naming sigil read := by
  induction cs generalizing st with
  | nil => exact ⟨by simp [Lexer.run], hst⟩
  | cons c cs ih =>
    obtain ⟨hat, hdollar⟩ := h c (by simp)
    have hstart : (∀ l ∈ (Lexer.start c).1, l.marker? = none) ∧
        ∀ sigil read, (Lexer.start c).2 ≠ .naming sigil read := by
      unfold Lexer.start
      split
      · exact ⟨by simp, by simp⟩
      · simp [hat, hdollar, Lexeme.marker?]
    have hstep : (∀ l ∈ (Lexer.step st c).1, l.marker? = none) ∧
        ∀ sigil read, (Lexer.step st c).2 ≠ .naming sigil read := by
      cases st with
      | outside => exact hstart
      | inside quote read =>
        simp only [Lexer.step]
        exact ⟨by simp, by split <;> simp⟩
      | closed quote read =>
        simp only [Lexer.step]
        split
        · exact ⟨by simp, by simp⟩
        · refine ⟨fun l hl => ?_, hstart.2⟩
          rcases List.mem_append.1 hl with hl | hl
          · simp only [Lexer.State.flush, List.mem_singleton] at hl
            rw [hl]; rfl
          · exact hstart.1 l hl
      | naming sigil read => exact absurd rfl (hst sigil read)
    obtain ⟨hl, hend⟩ := ih _ (fun d hd => h d (by simp [hd])) hstep.2
    refine ⟨fun l hmem => ?_, hend⟩
    simp only [Lexer.run, List.mem_append] at hmem
    rcases hmem with hmem | hmem
    · exact hstep.1 l hmem
    · exact hl l hmem

theorem marker?_textLexemes {s : String} (h : isWhole s) : ∀ l ∈ textLexemes s, l.marker? = none := by
  simp only [isWhole, Bool.and_eq_true, List.all_eq_true, bne_iff_ne] at h
  obtain ⟨hl, hend⟩ := Lexer.run_plain .outside h.1.2 (by simp)
  intro l hmem
  rcases List.mem_append.1 hmem with hmem | hmem
  · exact hl l hmem
  · cases hst : (Lexer.run .outside s.toList).2 with
    | naming sigil read => exact absurd hst (hend sigil read)
    | outside | inside quote read =>
      rw [hst] at hmem
      cases hmem
    | closed quote read =>
      rw [hst] at hmem
      rw [List.mem_singleton.1 hmem]
      rfl

theorem textLexemes_text {s : String} (h : isWhole s) : (textLexemes s).flatMap Lexeme.text = s.toList := by
  simp only [isWhole, Bool.and_eq_true] at h
  have hrun := Lexer.run_text .outside s.toList
  rw [textLexemes, List.flatMap_append, Lexer.State.flush_text (Lexer.State.isInside_of_isBetween h.1.1), hrun]
  rfl

end Sql

/-! ## Symbols of fragments -/

section Symbols

variable {β γ : Type}

/-- The symbols of a text without parameters. -/
def textSymbols (s : String) : List Symbol := (textLexemes s).map (Lexeme.bound '@' .empty)

/-- The symbols of a token, and what its slot stands for. -/
def Sql.Token.symbols (g : β → List Symbol) : Token β → List Symbol
  | .text s => textSymbols s
  | .name s => [.quoted '"' s]
  | .key s => [.quoted '\'' s]
  | .slot b => g b

/-- The symbols of a fragment, given those of its slots. -/
def Sql.Fragment.symbols (g : β → List Symbol) (f : Fragment β) : List Symbol := f.flatMap (Token.symbols g)

namespace Sql.Fragment

@[simp] theorem symbols_nil (g : β → List Symbol) : symbols g [] = [] := rfl

@[simp] theorem symbols_cons (g : β → List Symbol) (t : Token β) (f : Fragment β) :
    symbols g (t :: f) = t.symbols g ++ symbols g f := rfl

@[simp] theorem symbols_append (g : β → List Symbol) (f f' : Fragment β) :
    symbols g (f ++ f') = symbols g f ++ symbols g f' := by
  simp [symbols]

theorem symbols_map (g : γ → List Symbol) (h : β → γ) (f : Fragment β) :
    symbols g (f.map (Token.map h)) = symbols (fun b => g (h b)) f := by
  induction f with
  | nil => rfl
  | cons t f ih => cases t <;> simp [Token.map, Token.symbols, ih]

theorem symbols_splice (g : γ → List Symbol) (h : β → Fragment γ) (f : Fragment β) :
    symbols g (splice h f) = symbols (fun b => symbols g (h b)) f := by
  induction f with
  | nil => rfl
  | cons t f ih => cases t <;> simp [splice_cons, Token.splice, Token.symbols, ih]

theorem symbols_congr {g h : β → List Symbol} {f : Fragment β} (H : ∀ b ∈ f.slots, g b = h b) :
    symbols g f = symbols h f := by
  induction f with
  | nil => rfl
  | cons t f ih =>
    have ih := ih fun b hb => H b (by simp [hb])
    cases t with
    | slot b =>
      have hb := H b (by simp [Token.slots])
      simp [Token.symbols, ih, hb]
    | text s | name s | key s => simp [Token.symbols, ih]

end Sql.Fragment

theorem bound_of_marker?_eq_none {x : Lexeme} (h : x.marker? = none) (sigil : Char) (ps : Parameters) :
    x.bound sigil ps = x.bound '@' .empty := by
  cases x with
  | parameter s name => cases h
  | char c | quoted quote content => rfl

/-- The symbols of a legible fragment whose slots are parameters. -/
theorem symbols_of_legible {f : Fragment Marker} (hf : f.Legible) (sigil : Char) (ps : Parameters) :
    f.lexemes.map (Lexeme.bound sigil ps) =
      f.symbols fun m => [(Lexeme.parameter m.sigil m.name).bound sigil ps] := by
  obtain ⟨-, hwhole⟩ := hf
  rw [Fragment.lexemes, List.map_flatMap, Fragment.symbols]
  refine List.flatMap_congr fun t ht => ?_
  cases t with
  | text s =>
    have hs : isWhole s := hwhole (.text s) ht
    exact List.map_congr_left fun x hx => bound_of_marker?_eq_none (marker?_textLexemes hs x hx) sigil ps
  | name s | key s | slot m => rfl

/-- The pieces of a fragment are those of its symbols. -/
theorem flatMap_symbols {f : Fragment β} (hf : f.Whole) (g : β → List Symbol) :
    (f.symbols g).flatMap Symbol.pieces = f.pieces fun b => (g b).flatMap Symbol.pieces := by
  rw [Fragment.symbols, List.flatMap_assoc, Fragment.pieces]
  refine List.flatMap_congr fun t ht => ?_
  cases t with
  | text s =>
    have hs : isWhole s := hf (.text s) ht
    have hchars : (textLexemes s).flatMap (fun x => plain x.text) = plain s.toList := by
      rw [← textLexemes_text hs, plain, List.map_flatMap]
      rfl
    refine Eq.trans ?_ hchars
    rw [Token.symbols, textSymbols, List.flatMap_map]
    refine List.flatMap_congr fun x hx => ?_
    cases x with
    | parameter s name => cases marker?_textLexemes hs _ hx
    | char c | quoted quote content => rfl
  | name s | key s => simp [Token.symbols, Token.pieces, Symbol.pieces, quoteName, quoteKey]
  | slot b => rfl

end Symbols

/-- The parameters in the text of a legible fragment are its slots. -/
theorem markers_of_legible {f : Fragment Marker} (hf : f.Legible) : markers f.lexemes = f.slots := by
  obtain ⟨-, hwhole⟩ := hf
  induction f with
  | nil => rfl
  | cons t f ih =>
    have ih := ih fun u hu => hwhole u (by simp [hu])
    have ht : markers (t.lexemes fun m => [Lexeme.parameter m.sigil m.name]) = t.slots := by
      cases t with
      | text s =>
        have hs : isWhole s := hwhole (.text s) (by simp)
        simpa [markers, Token.lexemes, Token.slots, List.filterMap_eq_nil_iff] using marker?_textLexemes hs
      | name s | key s | slot m => rfl
    rw [Fragment.slots_cons, ← ih, ← ht, Fragment.lexemes, List.flatMap_cons, markers, List.filterMap_append]
    rfl

end ParamQuery
