/-
Templates and their slots. The parts of a template are those of its text cut at the
leftmost slots that do not overlap, and a text has one such cut (`exists_leftmost`,
`Leftmost.unique`, `Leftmost.partsFrom_eq`). So a rendered template is this cut with a
fragment in the place of each slot, and nothing in a fragment is read as a slot.

A template does not tell a missing fragment from an empty one, and it depends on no
fragment from its number of slots on (`slotCount_isLeast`); so a list may as well be
filled up with empty ones (`render_simultaneous`).
-/
import ParamQuery.Sql.Template
import Mathlib.Algebra.Order.BigOperators.Group.List
import Mathlib.Algebra.Order.Ring.Nat
import Mathlib.Data.List.GetD
import Mathlib.Data.List.Infix
import Mathlib.Data.Nat.Find
import Mathlib.Order.Bounds.Basic
import Mathlib.Tactic.IntervalCases

namespace ParamQuery.Sql.Template

/-! ## Slots in a text -/

/-- A slot with these digits in a text, with what stands before and behind it. -/
structure SlotAt (cs before digits behind : List Char) : Prop where
  digits_ne_nil : digits ≠ []
  decimal : ∀ c ∈ digits, Text.isDecimalDigit c
  text_eq : cs = before ++ '\x7b' :: (digits ++ '\x7d' :: behind)

/-- A text cut at slots. -/
structure Cut where
  /-- Each slot by its digits, with the text between it and the slot before it. -/
  slots : List (List Char × List Char)
  /-- The text behind the last slot. -/
  rest : List Char

/-- The cut of a text at its slots from left to right, each of them the first one behind
the slot before it. -/
inductive Leftmost : List Char → Cut → Prop where
  | done {cs : List Char} (hnone : ∀ before digits behind, ¬SlotAt cs before digits behind) : Leftmost cs ⟨[], cs⟩
  | next {cs before digits behind : List Char} {cut : Cut} (hslot : SlotAt cs before digits behind)
      (hfirst : ∀ before' digits' behind', SlotAt cs before' digits' behind' → before.length ≤ before'.length)
      (hbehind : Leftmost behind cut) : Leftmost cs ⟨(before, digits) :: cut.slots, cut.rest⟩

theorem SlotAt.cons {cs before digits behind : List Char} (h : SlotAt cs before digits behind) (c : Char) :
    SlotAt (c :: cs) (c :: before) digits behind :=
  ⟨h.digits_ne_nil, h.decimal, by rw [h.text_eq, List.cons_append]⟩

/-- A slot is the first thing in the text from it on. -/
theorem SlotAt.alone {cs before digits behind : List Char} (h : SlotAt cs before digits behind) :
    SlotAt ('\x7b' :: (digits ++ '\x7d' :: behind)) [] digits behind :=
  ⟨h.digits_ne_nil, h.decimal, rfl⟩

theorem SlotAt.length_lt {cs before digits behind : List Char} (h : SlotAt cs before digits behind) :
    behind.length < cs.length := by
  rw [h.text_eq]
  simp only [List.length_append, List.length_cons]
  omega

/-- What the scanner takes for a slot is one. -/
theorem slotDigits?_eq_some_iff {cs digits : List Char} :
    slotDigits? cs = some digits ↔ ∃ behind, SlotAt cs [] digits behind := by
  constructor
  · intro h
    unfold slotDigits? at h
    split at h
    next rest =>
      have hprefix := List.prefix_iff_eq_append.1 (List.takeWhile_prefix (l := rest) Text.isDecimalDigit)
      dsimp only at h
      split at h
      next hslot =>
        cases h
        simp only [Bool.and_eq_true, Bool.not_eq_true', List.isEmpty_eq_false_iff, beq_iff_eq] at hslot
        obtain ⟨behind, hbehind⟩ := List.head?_eq_some_iff.1 hslot.2
        rw [hbehind] at hprefix
        exact ⟨behind, hslot.1, List.all_eq_true.1 List.all_takeWhile, by rw [List.nil_append, hprefix]⟩
      next => cases h
    next => cases h
  · rintro ⟨behind, hne, hdecimal, rfl⟩
    have hclose : Text.isDecimalDigit '\x7d' = false := by decide
    have htake : (digits ++ '\x7d' :: behind).takeWhile Text.isDecimalDigit = digits := by
      rw [List.takeWhile_append_of_pos hdecimal, List.takeWhile_cons_of_neg (by simp [hclose]), List.append_nil]
    simp [slotDigits?, htake, hne]

/-- At one place, there is one slot. -/
theorem SlotAt.unique {cs digits digits' behind behind' : List Char} (h : SlotAt cs [] digits behind)
    (h' : SlotAt cs [] digits' behind') : digits = digits' ∧ behind = behind' := by
  have hdigits : digits = digits' :=
    Option.some.inj ((slotDigits?_eq_some_iff.2 ⟨behind, h⟩).symm.trans (slotDigits?_eq_some_iff.2 ⟨behind', h'⟩))
  have htext := h.text_eq.symm.trans h'.text_eq
  rw [hdigits] at htext
  exact ⟨hdigits, by simpa using htext⟩

/-! ## The leftmost slots -/

theorem exists_leftmost (cs : List Char) : ∃ cut, Leftmost cs cut := by
  classical
  induction hn : cs.length using Nat.strong_induction_on generalizing cs with
  | h n ih =>
    by_cases h : ∃ k before digits behind, SlotAt cs before digits behind ∧ before.length = k
    · obtain ⟨before, digits, behind, hslot, hlength⟩ := Nat.find_spec h
      obtain ⟨cut, hcut⟩ := ih _ (hn ▸ hslot.length_lt) behind rfl
      refine ⟨_, .next hslot (fun before' digits' behind' hslot' => ?_) hcut⟩
      rw [hlength]
      exact Nat.find_min' h ⟨before', digits', behind', hslot', rfl⟩
    · exact ⟨_, .done fun before digits behind hslot => h ⟨_, before, digits, behind, hslot, rfl⟩⟩

theorem Leftmost.unique {cs : List Char} {cut cut' : Cut} (h : Leftmost cs cut) (h' : Leftmost cs cut') :
    cut = cut' := by
  induction h generalizing cut' with
  | done hnone =>
    cases h' with
    | done => rfl
    | next hslot => exact absurd hslot (hnone _ _ _)
  | next hslot hfirst hbehind ih =>
    cases h' with
    | done hnone => exact absurd hslot (hnone _ _ _)
    | next hslot' hfirst' hbehind' =>
      have hlength := Nat.le_antisymm (hfirst _ _ _ hslot') (hfirst' _ _ _ hslot)
      obtain ⟨hbefore, htext⟩ := List.append_inj (hslot.text_eq.symm.trans hslot'.text_eq) hlength
      obtain ⟨hdigits, rfl⟩ := hslot.alone.unique (htext ▸ hslot'.alone)
      rw [hbefore, hdigits, ih hbehind']

/-! ## The scanner -/

theorem partsFrom_eq_drop (skip : Nat) (cs : List Char) : partsFrom skip cs = partsFrom 0 (cs.drop skip) := by
  induction cs generalizing skip with
  | nil => cases skip <;> rfl
  | cons c cs ih =>
    cases skip with
    | zero => rfl
    | succ skip => exact ih skip

theorem partsFrom_slot {cs digits behind : List Char} (h : SlotAt cs [] digits behind) :
    partsFrom 0 cs = .slot (slotIndex digits) :: partsFrom 0 behind := by
  have hdigits := slotDigits?_eq_some_iff.2 ⟨behind, h⟩
  obtain ⟨-, -, rfl⟩ := h
  rw [List.nil_append] at hdigits ⊢
  rw [partsFrom, hdigits]
  simp [partsFrom_eq_drop (digits.length + 1)]

/-- A text as parts of a template. -/
def textParts : List Char → List TemplatePart
  | [] => []
  | cs => [.text cs]

theorem consChar_of_ne_text {parts : List TemplatePart} (h : ∀ cs ps, parts ≠ .text cs :: ps) (c : Char) :
    consChar c parts = .text [c] :: parts := by
  unfold consChar
  split
  next cs ps => exact absurd rfl (h cs ps)
  next => rfl

/-- Where no slot begins, the characters are kept. -/
theorem partsFrom_append {text cs : List Char}
    (hfirst : ∀ before digits behind, SlotAt (text ++ cs) before digits behind → text.length ≤ before.length)
    (hcs : ∀ ds parts, partsFrom 0 cs ≠ .text ds :: parts) :
    partsFrom 0 (text ++ cs) = textParts text ++ partsFrom 0 cs := by
  induction text with
  | nil => rfl
  | cons c text ih =>
    have hnone : slotDigits? (c :: (text ++ cs)) = none := by
      rw [Option.eq_none_iff_forall_ne_some]
      intro digits hdigits
      obtain ⟨behind, hslot⟩ := slotDigits?_eq_some_iff.1 hdigits
      simpa using hfirst _ _ _ hslot
    have htail := ih fun before digits behind hslot => by simpa using hfirst _ _ _ (hslot.cons c)
    rw [List.cons_append, partsFrom, hnone]
    simp only [htail]
    cases text with
    | nil => exact consChar_of_ne_text hcs c
    | cons d text => rfl

/-- The parts of a text that is cut. -/
def Cut.parts (cut : Cut) : List TemplatePart :=
  cut.slots.flatMap (fun s => textParts s.1 ++ [TemplatePart.slot (slotIndex s.2)]) ++ textParts cut.rest

/-- **The scanner finds the leftmost slots.** -/
theorem Leftmost.partsFrom_eq {cs : List Char} {cut : Cut} (h : Leftmost cs cut) : partsFrom 0 cs = cut.parts := by
  induction h with
  | @done cs hnone =>
    have hparts : partsFrom 0 (cs ++ []) = textParts cs ++ partsFrom 0 [] :=
      partsFrom_append (fun before digits behind hslot => absurd (List.append_nil cs ▸ hslot) (hnone _ _ _))
        (by simp [partsFrom])
    simpa [partsFrom, Cut.parts] using hparts
  | next hslot hfirst hbehind ih =>
    have hparts := partsFrom_slot hslot.alone
    obtain ⟨-, -, rfl⟩ := hslot
    rw [partsFrom_append hfirst (by simp [hparts]), hparts, ih]
    simp [Cut.parts]

/-! ## Indices -/

theorem indexBound_eq : indexBound = 2 ^ 64 := by decide

theorem exists_digitChar {c : Char} (h : c.isDigit) : ∃ d < 10, c = Nat.digitChar d := by
  obtain ⟨hlow, hhigh⟩ : 48 ≤ c.toNat ∧ c.toNat ≤ 57 := Char.isDigit_iff_toNat.1 h
  have hd : c.toNat - 48 < 10 := by omega
  refine ⟨c.toNat - 48, hd, Char.toNat_inj.1 ?_⟩
  rw [Nat.toNat_digitChar_of_lt_ten hd]
  omega

/-- Digits are zeros and the numeral of the number they denote. -/
theorem exists_zeros {digits : List Char} (hne : digits ≠ []) (h : ∀ c ∈ digits, c.isDigit) :
    ∃ zeros, digits = List.replicate zeros '0' ++ Nat.toDigits 10 (Nat.ofDigitChars 10 digits 0) := by
  -- from the first digit to the last: a digit behind a number other than zero prolongs its numeral
  induction digits using List.reverseRecOn with
  | nil => exact absurd rfl hne
  | append_singleton ds c ih =>
    obtain ⟨d, hd, rfl⟩ := exists_digitChar (h c (by simp))
    have hnumber : Nat.ofDigitChars 10 (ds ++ [Nat.digitChar d]) 0 = 10 * Nat.ofDigitChars 10 ds 0 + d := by
      rw [Nat.ofDigitChars_append, Nat.ofDigitChars_cons_digitChar_of_lt_ten hd, Nat.ofDigitChars_nil]
    have hdigit : Nat.toDigits 10 d = [Nat.digitChar d] := Nat.toDigits_of_lt_base hd
    rw [hnumber]
    by_cases hds : ds = []
    · exact ⟨0, by simp [hds, hdigit]⟩
    · obtain ⟨zeros, hzeros⟩ := ih hds fun c hc => h c (by simp [hc])
      generalize Nat.ofDigitChars 10 ds 0 = m at hzeros ⊢
      rcases Nat.eq_zero_or_pos m with rfl | hm
      · refine ⟨zeros + 1, ?_⟩
        rw [hzeros, Nat.toDigits_zero, Nat.mul_zero, Nat.zero_add, hdigit, List.replicate_succ']
      · refine ⟨zeros, ?_⟩
        rw [hzeros, ← Nat.toDigits_append_toDigits (by decide) hm hd, hdigit, List.append_assoc]

theorem slotIndex_eq_some_iff {digits : List Char} (hne : digits ≠ []) {n : Nat} :
    slotIndex digits = some n ↔ n < 2 ^ 64 ∧ ∃ zeros, digits = List.replicate zeros '0' ++ Nat.toDigits 10 n := by
  have hindex : slotIndex digits = if digits.all Char.isDigit then
      if Nat.ofDigitChars 10 digits 0 < 2 ^ 64 then some (Nat.ofDigitChars 10 digits 0) else none else none := by
    rw [← indexBound_eq]
    rfl
  rw [hindex]
  constructor
  · intro h
    split at h
    next hdigits =>
      split at h
      next hlt =>
        cases h
        exact ⟨hlt, exists_zeros hne (by simpa using hdigits)⟩
      next => cases h
    next => cases h
  · rintro ⟨hlt, zeros, rfl⟩
    have hdigits : (List.replicate zeros '0' ++ Nat.toDigits 10 n).all Char.isDigit := by
      rw [List.all_eq_true]
      intro c hc
      rcases List.mem_append.1 hc with hzero | hnumeral
      · rw [List.eq_of_mem_replicate hzero]
        decide
      · exact Nat.isDigit_of_mem_toDigits (by decide) (by decide) hnumeral
    have hnumber : Nat.ofDigitChars 10 (List.replicate zeros '0' ++ Nat.toDigits 10 n) 0 = n := by
      rw [Nat.ofDigitChars_append, Nat.ofDigitChars_replicate_zero, Nat.mul_zero, Nat.ofDigitChars_ten_toDigits]
    rw [if_pos hdigits, hnumber, if_pos hlt]

/-! ## Rendering -/

/-- The text that is put in the place of a slot: the fragment with the number that the
digits denote, and nothing where there is no such number or no such fragment. -/
def chosen (fragments : List String) (digits : List Char) : List Char :=
  match slotIndex digits with
  | some i => (fragments.getD i "").toList
  | none => []

/-- The text of a cut with its slots replaced. -/
def Cut.fill (cut : Cut) (text : List Char → List Char) : List Char :=
  cut.slots.flatMap (fun s => s.1 ++ text s.2) ++ cut.rest

/-- What a part of a template becomes. -/
def filled (fragments : List String) : TemplatePart → List Char
  | .text cs => cs
  | .slot none => []
  | .slot (some i) => (fragments.getD i "").toList

theorem toList_render (t : Template) (fragments : List String) :
    (t.render fragments).toList = t.parts.flatMap (filled fragments) := by
  rw [render, expand, String.toList_ofList]
  refine List.flatMap_congr fun p _ => ?_
  cases p with
  | text cs => rfl
  | slot index =>
    cases index with
    | none => rfl
    | some i => exact List.getD_map fragments "" String.toList

theorem Cut.flatMap_parts (cut : Cut) (fragments : List String) :
    cut.parts.flatMap (filled fragments) = cut.fill (chosen fragments) := by
  have htext (cs : List Char) : (textParts cs).flatMap (filled fragments) = cs := by
    cases cs <;> simp [textParts, filled]
  have hslot (digits : List Char) : filled fragments (.slot (slotIndex digits)) = chosen fragments digits := by
    unfold chosen
    cases slotIndex digits <;> rfl
  simp [Cut.parts, Cut.fill, List.flatMap_assoc, htext, hslot]

/-! ## The fragments that count -/

theorem slotCount_le_iff (t : Template) (n : Nat) :
    t.slotCount ≤ n ↔ ∀ i, TemplatePart.slot (some i) ∈ t.parts → i + 1 < 2 ^ 64 → i < n := by
  have hfold : ∀ (parts : List TemplatePart) (m : Nat),
      parts.foldl (fun k p => max k (reach p)) m ≤ n ↔ m ≤ n ∧ ∀ p ∈ parts, reach p ≤ n := by
    intro parts
    induction parts with
    | nil => simp
    | cons p parts ih =>
      intro m
      rw [List.foldl_cons, ih, max_le_iff, and_assoc, List.forall_mem_cons]
  rw [slotCount, hfold]
  constructor
  · intro h i hi hlt
    have hreach := h.2 _ hi
    rw [reach, indexBound_eq, if_pos hlt] at hreach
    exact hreach
  · refine fun h => ⟨Nat.zero_le n, fun p hp => ?_⟩
    unfold reach
    split
    next i =>
      rw [indexBound_eq]
      split
      next hlt => exact h i hp hlt
      next => exact Nat.zero_le n
    next => exact Nat.zero_le n

theorem slotCount_lt (t : Template) : t.slotCount < 2 ^ 64 := by
  have h := (t.slotCount_le_iff (2 ^ 64 - 1)).2 fun i _ hi => by omega
  omega

/-- The rendered text depends on no fragment from this number on, and it does not tell a
missing fragment from an empty one. -/
def DependsBelow (t : Template) (n : Nat) : Prop :=
  ∀ fs gs : List String, fs.length < 2 ^ 64 → gs.length < 2 ^ 64 →
    (∀ i < n, fs.getD i "" = gs.getD i "") → t.render fs = t.render gs

theorem dependsBelow_slotCount (t : Template) : t.DependsBelow t.slotCount := by
  intro fs gs hfs hgs hsame
  rw [← String.toList_inj, toList_render, toList_render]
  refine List.flatMap_congr fun p hp => ?_
  rcases p with cs | _ | i
  · rfl
  · rfl
  · by_cases hi : i + 1 < 2 ^ 64
    · have hlt : i < t.slotCount := (t.slotCount_le_iff t.slotCount).1 (Nat.le_refl _) i hp hi
      simp only [filled, hsame i hlt]
    · -- no list has a fragment of the last index
      simp only [filled]
      rw [List.getD_eq_default _ _ (by omega), List.getD_eq_default _ _ (by omega)]

/-- A fragment that a slot asks for makes the text longer. -/
theorem render_ne_of_slot {t : Template} {i : Nat} (h : TemplatePart.slot (some i) ∈ t.parts) :
    t.render (List.replicate i "" ++ ["x"]) ≠ t.render [] := by
  intro hsame
  have hlength := congrArg (fun s => s.toList.length) hsame
  simp only [toList_render, List.length_flatMap] at hlength
  refine absurd hlength.symm (Nat.ne_of_lt (List.sum_lt_sum _ _ (fun p _ => ?_) ⟨_, h, ?_⟩))
  · rcases p with cs | _ | j <;> simp [filled]
  · simp [filled]

/-- **The slots count the fragments that matter**: none of a larger index, and no fewer. -/
theorem slotCount_isLeast (t : Template) : IsLeast {n | t.DependsBelow n} t.slotCount := by
  refine ⟨t.dependsBelow_slotCount, fun n hn => (t.slotCount_le_iff n).2 fun i hi hlt => ?_⟩
  by_contra hle
  refine render_ne_of_slot hi (hn _ _ (by simpa using hlt) (by simp) fun j hj => ?_)
  have hj' : j < (List.replicate i "").length := by
    rw [List.length_replicate]
    omega
  rw [List.getD_append _ _ _ _ hj']
  simp

theorem render_padded (t : Template) {fragments : List String} (h : fragments.length < 2 ^ 64) :
    t.render (fragments ++ List.replicate (t.slotCount - fragments.length) "") = t.render fragments := by
  have hlength : (fragments ++ List.replicate (t.slotCount - fragments.length) "").length < 2 ^ 64 := by
    have hcount := t.slotCount_lt
    rw [List.length_append, List.length_replicate]
    omega
  refine t.dependsBelow_slotCount _ _ hlength h fun i _ => ?_
  rcases Nat.lt_or_ge i fragments.length with hi | hi
  · exact List.getD_append _ _ _ _ hi
  · rw [List.getD_append_right _ _ _ _ hi, List.getD_eq_default _ _ hi]
    simp

/-- **A template is filled in at once.** There is one cut of its text at the leftmost slots
that do not overlap, whatever the fragments are, and the rendered text is this cut with the
chosen fragment in the place of each slot; so all other characters are kept, and a slot in
the text of a fragment stays as it is. Digits choose the fragment of which they are the
number below `2 ^ 64`, zeros in front of it or not. The number of slots is the least one
from which on no fragment matters, and filling up with empty fragments to that number makes
no difference. -/
theorem render_simultaneous (t : Template) :
    (∃ cut, (∀ cut', Leftmost t.source.toList cut' ↔ cut' = cut) ∧
      ∀ fragments, (t.render fragments).toList = cut.fill (chosen fragments)) ∧
    (∀ digits ≠ [], ∀ n, slotIndex digits = some n ↔
      n < 2 ^ 64 ∧ ∃ zeros, digits = List.replicate zeros '0' ++ Nat.toDigits 10 n) ∧
    IsLeast {n | t.DependsBelow n} t.slotCount ∧
    ∀ fragments : List String, fragments.length < 2 ^ 64 →
      t.render (fragments ++ List.replicate (t.slotCount - fragments.length) "") = t.render fragments := by
  obtain ⟨cut, hcut⟩ := exists_leftmost t.source.toList
  refine ⟨⟨cut, fun cut' => ⟨fun hcut' => hcut'.unique hcut, fun h => h ▸ hcut⟩, fun fragments => ?_⟩,
    fun digits hne n => slotIndex_eq_some_iff hne, t.slotCount_isLeast, fun fragments => t.render_padded⟩
  rw [toList_render, parts, hcut.partsFrom_eq, cut.flatMap_parts]

/-- Braces around a slot, numbers that no fragment has, and a slot that does not end. -/
def braces : Template :=
  ⟨"\x7b\x7b0\x7d\x7d\x7b01\x7d\x7b99999999999999999999\x7d\x7b18446744073709551615\x7d\x7b2"⟩

/-- A fragment that looks like the other slot, with nothing for that one, an empty
fragment for it, or one more than there are slots. -/
theorem braces_render :
    ["A\x7b1\x7d"].length < 2 ^ 64 ∧ braces.slotCount = 2 ∧
      braces.render ["A\x7b1\x7d"] = "\x7bA\x7b1\x7d\x7d\x7b2" ∧
      braces.render (["A\x7b1\x7d"] ++ List.replicate (braces.slotCount - 1) "") = "\x7bA\x7b1\x7d\x7d\x7b2" ∧
      braces.render ["A\x7b1\x7d", "", "x"] = "\x7bA\x7b1\x7d\x7d\x7b2" ∧
      slotIndex ['0', '1'] = some 1 := by
  have hcount : braces.slotCount = 2 := by decide
  have hrender : braces.render ["A\x7b1\x7d"] = "\x7bA\x7b1\x7d\x7d\x7b2" := by decide
  obtain ⟨-, hindex, hleast, hpadded⟩ := render_simultaneous braces
  refine ⟨by decide, hcount, hrender, (hpadded _ (by decide)).trans hrender, ?_,
    (hindex ['0', '1'] (by decide) 1).2 ⟨by decide, 1, by decide⟩⟩
  refine (hleast.1 _ _ (by decide) (by decide) fun i hi => ?_).trans hrender
  rw [hcount] at hi
  interval_cases i <;> rfl

end ParamQuery.Sql.Template
