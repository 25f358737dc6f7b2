/-
Replacing parameters in the text of a fragment. A pattern that begins with `@`
is found only at slots when nothing else in the fragment holds an `@`, and only
at the slots it names when no name begins another one. So replacing one name
after another puts, in the end, each slot's replacement in its place
(`replaceAll_fold`).
-/
import ParamQuery.Proofs.FragmentFacts
import ParamQuery.Text.Replace
import Mathlib.Data.List.Basic
import Mathlib.Data.List.Infix

namespace ParamQuery.Text

variable {pattern replacement : List Char}

/-- The characters of an occurrence are passed over. -/
theorem replaceFrom_skip (cs rest : List Char) :
    replaceFrom pattern replacement cs.length (cs ++ rest) = replaceFrom pattern replacement 0 rest := by
  induction cs with
  | nil => rfl
  | cons c cs ih => simpa [replaceFrom] using ih

theorem replaceFrom_occurrence (c : Char) (name rest : List Char) :
    replaceFrom (c :: name) replacement 0 (c :: name ++ rest) =
      replacement ++ replaceFrom (c :: name) replacement 0 rest := by
  have hprefix : (c :: name).isPrefixOf (c :: (name ++ rest)) = true := by
    rw [List.isPrefixOf_iff_prefix]
    exact ⟨rest, by simp⟩
  rw [List.cons_append, replaceFrom, if_pos hprefix]
  simp only [List.length_cons, Nat.add_sub_cancel]
  rw [replaceFrom_skip]

/-- Nothing is found where the first character does not occur. -/
theorem replaceFrom_plain {c : Char} {name cs : List Char} (h : c ∉ cs) (rest : List Char) :
    replaceFrom (c :: name) replacement 0 (cs ++ rest) = cs ++ replaceFrom (c :: name) replacement 0 rest := by
  induction cs with
  | nil => rfl
  | cons d cs ih =>
    simp only [List.mem_cons, not_or] at h
    have hprefix : (c :: name).isPrefixOf (d :: (cs ++ rest)) = false := by
      simp [List.isPrefixOf, h.1]
    rw [List.cons_append, replaceFrom, hprefix, ih h.2]
    rfl

/-- Two names of which neither begins the other. -/
def Apart (m n : List Char) : Prop := ¬m <+: n ∧ ¬n <+: m

/-- Another name is not found. -/
theorem replaceFrom_apart {c : Char} {name other : List Char} (h : Apart other name) (hc : c ∉ other)
    (rest : List Char) :
    replaceFrom (c :: name) replacement 0 (c :: other ++ rest) =
      c :: other ++ replaceFrom (c :: name) replacement 0 rest := by
  have hprefix : (c :: name).isPrefixOf (c :: (other ++ rest)) = false := by
    rw [Bool.eq_false_iff, Ne, List.isPrefixOf_iff_prefix, List.cons_prefix_cons]
    rintro ⟨-, hname⟩
    rcases List.prefix_or_prefix_of_prefix hname (List.prefix_append other rest) with h' | h'
    · exact h.2 h'
    · exact h.1 h'
  rw [List.cons_append, replaceFrom, hprefix, replaceFrom_plain hc]
  rfl

end ParamQuery.Text

namespace ParamQuery.Sql

open Text

/-- No name and no key of the fragment holds the character. -/
def Fragment.Lacks {β : Type} (c : Char) (f : Fragment β) : Prop :=
  ∀ s, Token.name s ∈ f ∨ Token.key s ∈ f → c ∉ s.toList

theorem notMem_enclose {c quote : Char} (hq : c ≠ quote) {s : String} (h : c ∉ s.toList) :
    c ∉ (enclose quote s).toList := by
  have hdoubled : ∀ cs : List Char, c ∉ cs → c ∉ doubled quote cs := by
    intro cs hcs
    induction cs with
    | nil => exact hcs
    | cons d cs ih =>
      simp only [List.mem_cons, not_or] at hcs
      unfold doubled
      split <;> simp [hcs.1, ih hcs.2]
  simp [enclose, hq, hdoubled _ h]

theorem atSign_notMem_of_isWhole {s : String} (h : isWhole s) : '@' ∉ s.toList := by
  simp only [isWhole, Bool.and_eq_true, List.all_eq_true, bne_iff_ne] at h
  exact fun hmem => (h.1.2 '@' hmem).1 rfl

/-- The characters of a name with the sign of a parameter in front. -/
theorem toList_at (n : String) : ("@" ++ n).toList = '@' :: n.toList := by
  simp

/-- Replacing one name in a fragment whose slots hold names, some of them
replaced before. -/
theorem replaceAll_render {f : Fragment String} {name : String} (new : String) {text : String → String}
    (hwhole : f.Whole) (hlacks : f.Lacks '@') (hslots : ∀ n ∈ f.slots, '@' ∉ n.toList)
    (hapart : ∀ n ∈ f.slots, n ≠ name → Apart n.toList name.toList)
    (htext : ∀ n ∈ f.slots, text n = "@" ++ n ∨ (n ≠ name ∧ '@' ∉ (text n).toList)) :
    replaceAll ("@" ++ name) new (Fragment.render (f.map (Token.map text))) =
      Fragment.render (f.map (Token.map fun n => if n = name then new else text n)) := by
  suffices h : replaceFrom ('@' :: name.toList) new.toList 0 (Fragment.render (f.map (Token.map text))).toList =
      (Fragment.render (f.map (Token.map fun n => if n = name then new else text n))).toList by
    rw [replaceAll, toList_at, h, String.ofList_toList]
  induction f with
  | nil => rfl
  | cons t f ih =>
    have ih := ih (fun u hu => hwhole u (by simp [hu])) (fun s hs => hlacks s (by simpa using hs.imp .inr .inr))
      (fun n hn => hslots n (by simp [hn])) (fun n hn => hapart n (by simp [hn]))
      (fun n hn => htext n (by simp [hn]))
    have hplain : ∀ s : String, '@' ∉ s.toList →
        replaceFrom ('@' :: name.toList) new.toList 0 (s.toList ++
          (Fragment.render (f.map (Token.map text))).toList) = s.toList ++
          (Fragment.render (f.map (Token.map fun n => if n = name then new else text n))).toList := by
      intro s hs
      rw [replaceFrom_plain hs, ih]
    simp only [List.map_cons, Fragment.render_cons, String.toList_append]
    cases t with
    | text s => exact hplain s (atSign_notMem_of_isWhole (hwhole (.text s) (by simp)))
    | name s => exact hplain _ (notMem_enclose (by decide) (hlacks s (.inl (by simp))))
    | key s => exact hplain _ (notMem_enclose (by decide) (hlacks s (.inr (by simp))))
    | slot n =>
      have hn : n ∈ Fragment.slots (.slot n :: f) := by simp [Token.slots]
      simp only [Token.map, Token.render]
      by_cases hname : n = name
      · subst hname
        have htoken : text n = "@" ++ n := (htext n hn).resolve_right fun h => h.1 rfl
        rw [htoken, toList_at, replaceFrom_occurrence, ih, if_pos rfl]
      · rw [if_neg hname]
        rcases htext n hn with htoken | ⟨-, hfree⟩
        · rw [htoken, toList_at, replaceFrom_apart (hapart n hn hname) (hslots n hn), ih]
        · exact hplain _ hfree

/-- What replaces a name, the given text when nothing does. -/
def replacement (pairs : List (String × String)) (name : String) (otherwise : String) : String :=
  ((pairs.find? (·.1 == name)).map (·.2)).getD otherwise

/-- **Names replaced one after another** are replaced each by its own text. -/
theorem replaceAll_fold {f : Fragment String} (hwhole : f.Whole) (hlacks : f.Lacks '@')
    (hslots : ∀ n ∈ f.slots, '@' ∉ n.toList) {pairs : List (String × String)}
    (hnodup : (pairs.map (·.1)).Nodup) (hnew : ∀ p ∈ pairs, '@' ∉ p.2.toList)
    (hapart : ∀ p ∈ pairs, ∀ n ∈ f.slots, n ≠ p.1 → Apart n.toList p.1.toList) (text : String → String)
    (htext : ∀ n ∈ f.slots, text n = "@" ++ n ∨ (n ∉ pairs.map (·.1) ∧ '@' ∉ (text n).toList)) :
    pairs.foldl (fun s p => replaceAll ("@" ++ p.1) p.2 s) (Fragment.render (f.map (Token.map text))) =
      Fragment.render (f.map (Token.map fun n => replacement pairs n (text n))) := by
  induction pairs generalizing text with
  | nil => rfl
  | cons p pairs ih =>
    obtain ⟨hp, hrest⟩ := List.nodup_cons.1 hnodup
    have hstep := replaceAll_render p.2 hwhole hlacks hslots (hapart p (by simp))
      fun n hn => (htext n hn).imp_right fun h => ⟨fun he => h.1 (by simp [he]), h.2⟩
    rw [List.foldl_cons, hstep, ih hrest (fun q hq => hnew q (by simp [hq]))
      (fun q hq => hapart q (by simp [hq])) _]
    · congr 1
      refine List.map_congr_left fun t ht => ?_
      cases t with
      | slot n =>
        -- the name that was replaced first is not replaced again
        have hfound : p.1 = n → pairs.find? (·.1 == n) = none := by
          rintro rfl
          refine List.find?_eq_none.2 fun q hq heq => hp ?_
          exact List.mem_map.2 ⟨q, hq, by simpa using heq⟩
        by_cases hn : p.1 = n
        · simp [Token.map, replacement, hn, hfound hn]
        · simp [Token.map, replacement, hn, Ne.symm hn]
      | text s | name s | key s => rfl
    · intro n hn
      by_cases hname : n = p.1
      · exact .inr ⟨hname ▸ hp, by simp [hname, hnew p (by simp)]⟩
      · simp only [hname, if_false]
        exact (htext n hn).imp_right fun h => ⟨fun hmem => h.1 (by simp [hmem]), h.2⟩

end ParamQuery.Sql
