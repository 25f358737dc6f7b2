/-
Fragments put together. `Fragment.slots` are the slots from left to right, and
`Fragment.splice` puts a fragment in the place of each slot.

A fragment is `Legible` when it is spaced and each of its texts is whole, so
that it is read back token by token. Legible fragments stay so when they are
joined by punctuation, and when legible fragments are put in their slots.
-/
import ParamQuery.Proofs.Lexing

namespace ParamQuery.Sql

variable {β γ δ : Type}

/-! ## Slots -/

/-- The slot that a token is, if it is one. -/
def Token.slots : Token β → List β
  | .slot b => [b]
  | _ => []

/-- The slots from left to right. -/
def Fragment.slots (f : Fragment β) : List β := f.flatMap Token.slots

namespace Fragment

@[simp] theorem slots_nil : slots ([] : Fragment β) = [] := rfl

@[simp] theorem slots_cons (t : Token β) (f : Fragment β) : slots (t :: f) = t.slots ++ slots f := rfl

@[simp] theorem slots_append (f g : Fragment β) : slots (f ++ g) = slots f ++ slots g := by
  simp [slots]

theorem slots_flatMap {α : Type} (l : List α) (g : α → Fragment β) :
    slots (l.flatMap g) = l.flatMap fun a => slots (g a) := by
  rw [slots, List.flatMap_assoc]
  rfl

theorem mem_slots {f : Fragment β} {b : β} : b ∈ slots f ↔ Token.slot b ∈ f := by
  simp only [slots, List.mem_flatMap]
  constructor
  · rintro ⟨t, ht, hb⟩
    cases t <;> simp_all [Token.slots]
  · exact fun h => ⟨_, h, by simp [Token.slots]⟩

theorem slots_map (g : β → γ) (f : Fragment β) : slots (f.map (Token.map g)) = (slots f).map g := by
  induction f with
  | nil => rfl
  | cons t f ih => cases t <;> simp [Token.map, Token.slots, ih]

theorem slots_separated (s : String) (fs : List (Fragment β)) :
    slots (separated s fs) = fs.flatMap slots := by
  induction fs with
  | nil => rfl
  | cons f fs ih =>
    cases fs with
    | nil => simp [separated]
    | cons g fs => simp [separated, Token.slots, ih]

theorem slots_parenthesized (f : Fragment β) : slots (parenthesized f) = slots f := by
  simp [parenthesized, Token.slots]

theorem slots_traversal (steps : List String) : slots (traversal steps : Fragment β) = [] := by
  induction steps with
  | nil => rfl
  | cons step rest ih =>
    cases rest with
    | nil => simp [traversal, Token.slots]
    | cons next rest => simp [traversal, Token.slots, ih]

theorem flatMap_slots_parenthesized (fs : List (Fragment β)) :
    (fs.map parenthesized).flatMap slots = fs.flatMap slots := by
  rw [List.flatMap_map]
  exact List.flatMap_congr fun f _ => slots_parenthesized f

end Fragment

/-! ## Fragments in the place of slots -/

/-- The token, a fragment in place of its slot. -/
def Token.splice (g : β → Fragment γ) : Token β → Fragment γ
  | .text s => [.text s]
  | .name s => [.name s]
  | .key s => [.key s]
  | .slot b => g b

/-- The fragment with a fragment in the place of each slot. -/
def Fragment.splice (g : β → Fragment γ) (f : Fragment β) : Fragment γ := f.flatMap (Token.splice g)

namespace Fragment

theorem splice_cons (g : β → Fragment γ) (t : Token β) (f : Fragment β) :
    splice g (t :: f) = t.splice g ++ splice g f := rfl

theorem slots_splice (g : β → Fragment γ) (f : Fragment β) :
    slots (splice g f) = (slots f).flatMap fun b => slots (g b) := by
  induction f with
  | nil => rfl
  | cons t f ih => cases t <;> simp [splice_cons, Token.splice, Token.slots, ih]

theorem splice_map (g : γ → Fragment δ) (h : β → γ) (f : Fragment β) :
    splice g (f.map (Token.map h)) = splice (fun b => g (h b)) f := by
  induction f with
  | nil => rfl
  | cons t f ih => cases t <;> simp [splice_cons, Token.splice, Token.map, ih]

theorem map_splice (h : γ → δ) (g : β → Fragment γ) (f : Fragment β) :
    (splice g f).map (Token.map h) = splice (fun b => (g b).map (Token.map h)) f := by
  induction f with
  | nil => rfl
  | cons t f ih => cases t <;> simp [splice_cons, Token.splice, Token.map, ih]

/-- A spliced fragment reads like the fragment with the texts of what was put
in its slots. -/
theorem render_splice {g : β → Fragment String} {text : β → String} {f : Fragment β}
    (h : ∀ b ∈ slots f, render (g b) = text b) : render (splice g f) = render (f.map (Token.map text)) := by
  induction f with
  | nil => rfl
  | cons t f ih =>
    have ih := ih fun b hb => h b (by simp [hb])
    cases t with
    | slot b =>
      have hb := h b (by simp [Token.slots])
      simp [splice_cons, Token.splice, Token.map, Token.render, ih, hb]
    | text s | name s | key s => simp [splice_cons, Token.splice, Token.map, Token.render, ih]

end Fragment

/-! ## Legible fragments -/

/-- Text between two fragments. -/
def isSeparator (s : String) : Bool := isWhole s && !isTight s && isDelimiter s

/-- Text in front of a fragment. -/
def isOpening (s : String) : Bool := isWhole s && !isTight s

/-- Text behind a fragment. -/
def isClosing (s : String) : Bool := isWhole s && isDelimiter s

/-- A fragment that is read back token by token, once its slots are. -/
structure Fragment.Legible (f : Fragment β) : Prop where
  spaced : f.Spaced
  whole : f.Whole

theorem Token.tight_map (g : β → γ) (t : Token β) : (t.map g).tight = t.tight := by cases t <;> rfl

theorem Token.delimiter_map (g : β → γ) (t : Token β) : (t.map g).delimiter = t.delimiter := by cases t <;> rfl

theorem Token.whole_map (g : β → γ) (t : Token β) : (t.map g).whole = t.whole := by cases t <;> rfl

namespace Fragment.Legible

theorem nil : Legible ([] : Fragment β) := ⟨.nil, by simp [Whole]⟩

theorem name (s : String) : Legible ([.name s] : Fragment β) := ⟨.singleton _, by simp [Whole, Token.whole]⟩

theorem key (s : String) : Legible ([.key s] : Fragment β) := ⟨.singleton _, by simp [Whole, Token.whole]⟩

theorem slot (b : β) : Legible [Token.slot b] := ⟨.singleton _, by simp [Whole, Token.whole]⟩

theorem text {s : String} (h : isWhole s) : Legible ([.text s] : Fragment β) :=
  ⟨.singleton _, by simp [Whole, Token.whole, h]⟩

/-- Text in front of a legible fragment. -/
theorem cons {s : String} {f : Fragment β} (hs : isOpening s) (hf : f.Legible) : Legible (.text s :: f) := by
  simp only [isOpening, Bool.and_eq_true, Bool.not_eq_true'] at hs
  refine ⟨List.isChain_cons.2 ⟨fun t _ htight => ?_, hf.spaced⟩, ?_⟩
  · simp [Token.tight, hs.2] at htight
  · intro t ht
    rcases List.mem_cons.1 ht with rfl | ht
    · exact hs.1
    · exact hf.whole t ht

/-- A fragment that begins with a delimiter behind another one. -/
theorem append {f g : Fragment β} (hf : f.Legible) (hg : g.Legible) (h : ∀ t ∈ g.head?, t.delimiter) :
    Legible (f ++ g) := by
  refine ⟨List.isChain_append.2 ⟨hf.spaced, hg.spaced, fun _ _ t ht _ => h t ht⟩, ?_⟩
  intro t ht
  rcases List.mem_append.1 ht with ht | ht
  · exact hf.whole t ht
  · exact hg.whole t ht

/-- Punctuation between two fragments. -/
theorem join {s : String} {f g : Fragment β} (hf : f.Legible) (hs : isSeparator s) (hg : g.Legible) :
    Legible (f ++ Token.text s :: g) := by
  simp only [isSeparator, Bool.and_eq_true, Bool.not_eq_true'] at hs
  refine hf.append (cons (by simp [isOpening, hs.1]) hg) ?_
  simp [Token.delimiter, hs.2]

/-- Punctuation behind a fragment. -/
theorem close {s : String} {f : Fragment β} (hf : f.Legible) (hs : isClosing s) :
    Legible (f ++ [Token.text s]) := by
  simp only [isClosing, Bool.and_eq_true] at hs
  exact hf.append (text hs.1) (by simp [Token.delimiter, hs.2])

theorem separated {s : String} (hs : isSeparator s) {fs : List (Fragment β)} (h : ∀ f ∈ fs, f.Legible) :
    Legible (Fragment.separated s fs) := by
  induction fs with
  | nil => exact nil
  | cons f fs ih =>
    cases fs with
    | nil => exact h f (by simp)
    | cons g fs =>
      exact (h f (by simp)).join hs (ih fun x hx => h x (by simp [hx]))

theorem parenthesized {f : Fragment β} (h : f.Legible) : Legible (Fragment.parenthesized f) :=
  cons (by decide) (h.close (by decide))

theorem qualified (table column : String) : Legible (Fragment.qualified table column : Fragment β) :=
  (name table).join (by decide) (name column)

/-- The way into a JSON document begins with an arrow. -/
theorem traversal (steps : List String) :
    Legible (Fragment.traversal steps : Fragment β) ∧
      ∀ t ∈ (Fragment.traversal steps : Fragment β).head?, t.delimiter := by
  induction steps with
  | nil => exact ⟨nil, by simp [Fragment.traversal]⟩
  | cons step rest ih =>
    cases rest with
    | nil => exact ⟨cons (by decide) (key step), by simp [Fragment.traversal, Token.delimiter]; decide⟩
    | cons next rest =>
      refine ⟨cons (by decide) ((key step).append ih.1 ih.2), ?_⟩
      simp [Fragment.traversal, Token.delimiter]; decide

theorem map (g : β → γ) {f : Fragment β} (h : f.Legible) : Legible (f.map (Token.map g)) := by
  refine ⟨(List.isChain_map _).2 (h.spaced.imp fun a b hab => ?_), ?_⟩
  · rw [Token.tight_map, Token.delimiter_map]
    exact hab
  · intro t ht
    obtain ⟨u, hu, rfl⟩ := List.mem_map.1 ht
    rw [Token.whole_map]
    exact h.whole u hu

/-- Legible fragments in the slots of a legible fragment. -/
theorem splice {g : β → Fragment γ} {f : Fragment β} (hf : f.Legible)
    (hg : ∀ b ∈ f.slots, (g b).Legible) : Legible (f.splice g) := by
  induction f with
  | nil => exact nil
  | cons t f ih =>
    obtain ⟨hhead, htail⟩ := List.isChain_cons.1 hf.spaced
    have hrest : Legible (Fragment.splice g f) :=
      ih ⟨htail, fun u hu => hf.whole u (by simp [hu])⟩ fun b hb => hg b (by simp [hb])
    -- what comes behind a tight token begins with a delimiter, spliced or not
    have hdel : t.tight → ∀ u ∈ (Fragment.splice g f).head?, u.delimiter := by
      intro ht u hu
      cases f with
      | nil => simp [Fragment.splice] at hu
      | cons v f =>
        have hv : v.delimiter := hhead v (by simp) ht
        cases v with
        | text s =>
          simp only [Fragment.splice_cons, Token.splice, List.cons_append, List.nil_append, List.head?_cons,
            Option.mem_def, Option.some.injEq] at hu
          exact hu ▸ hv
        | name s | key s | slot b => cases hv
    rw [Fragment.splice_cons]
    cases t with
    | text s =>
      have hw : isWhole s := hf.whole (.text s) (by simp)
      by_cases ht : isTight s
      · exact (text hw).append hrest (hdel ht)
      · exact cons (by simp [isOpening, hw, ht]) hrest
    | name s => exact (name s).append hrest (hdel rfl)
    | key s => exact (key s).append hrest (hdel rfl)
    | slot b => exact (hg b (by simp [Token.slots])).append hrest (hdel rfl)

end Fragment.Legible

/-- Reading a legible fragment whose slots hold texts. -/
theorem Fragment.Legible.lex {f : Fragment String} (hf : f.Legible) (hm : ∀ s ∈ f.slots, isReadable s) :
    lex (Fragment.render f) = some (f.flatMap (Token.lexemes textLexemes)) :=
  lex_render hf.spaced hf.whole fun s h => hm s (Fragment.mem_slots.2 h)

/-- Reading a legible fragment whose slots are parameters. -/
theorem lex_render_of_legible {f : Fragment Marker} (hf : f.Legible) (hm : ∀ m ∈ f.slots, m.Valid) :
    lex (Fragment.render (f.map (Token.map Marker.text))) = some f.lexemes := by
  have hreadable : ∀ s ∈ Fragment.slots (f.map (Token.map Marker.text)), isReadable s := by
    rw [Fragment.slots_map]
    intro s hs
    obtain ⟨m, hmem, rfl⟩ := List.mem_map.1 hs
    rw [isReadable, (hm m hmem).run]
    rfl
  rw [(hf.map Marker.text).lex hreadable, List.flatMap_map, Fragment.lexemes]
  refine congrArg some (List.flatMap_congr fun t ht => ?_)
  cases t with
  | slot m => exact (hm m (Fragment.mem_slots.2 ht)).textLexemes
  | text s | name s | key s => rfl

end ParamQuery.Sql
