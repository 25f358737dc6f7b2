/-
Taking over a command in positional style. Its names are replaced in its text one
after another, in a text that already holds the numbers of the names before. If no
name holds the sign of a parameter and none begins another one, this is the same
as replacing all of them at once: each place of the text on its own says what
becomes of it (`Text.replaceAt`), whatever becomes of the others.

`Text.replaceTogetherFrom` goes over the text once, for all names. It is what the
replacements come to (`replaceAll_foldl`), and it gives each place what
`Text.replaceAt` gives it (`replaceTogetherFrom_eq`).
-/
import ParamQuery.Proofs.SessionRegistry

namespace ParamQuery.Text

/-- A pattern and what replaces it. -/
abbrev Rule := List Char × List Char

/-- Whether the pattern of a rule begins at a place of the text. -/
def Rule.startsAt (r : Rule) (cs : List Char) (i : Nat) : Bool := r.1.isPrefixOf (cs.drop i)

/-- What a place of the text becomes: the replacement of the pattern that begins
there, nothing inside of one that begins before it, and itself anywhere else. -/
def replaceAt (rules : List Rule) (cs : List Char) (i : Nat) : List Char :=
  match rules.find? (·.startsAt cs i) with
  | some r => r.2
  | none =>
    if (List.range i).any fun j => rules.any fun r => r.startsAt cs j && i < j + r.1.length then []
    else cs[i]?.toList

/-- The text with all patterns replaced at once. -/
def replaceTogether (rules : List Rule) (s : String) : String :=
  String.ofList ((List.range s.toList.length).flatMap (replaceAt rules s.toList))

/-- Replace in the characters behind the next `skip` ones, which belong to a
pattern already replaced. -/
def replaceTogetherFrom (rules : List Rule) : Nat → List Char → List Char
  | _, [] => []
  | skip + 1, _ :: rest => replaceTogetherFrom rules skip rest
  | 0, c :: rest =>
    match rules.find? (·.startsAt (c :: rest) 0) with
    | some r => r.2 ++ replaceTogetherFrom rules (r.1.length - 1) rest
    | none => c :: replaceTogetherFrom rules 0 rest

/-- A rule for a name behind a mark; its replacement begins with a sign that is in
no name, and holds no mark. -/
structure Rule.Marked (mark sign : Char) (r : Rule) : Prop where
  pattern : ∃ name, r.1 = mark :: name ∧ mark ∉ name ∧ sign ∉ name
  replacement : r.2.head? = some sign ∧ mark ∉ r.2

instance : Std.Symm fun r r' : Rule => Apart r.1 r'.1 := ⟨fun _ _ h => ⟨h.2, h.1⟩⟩

/-- No pattern begins another one. -/
def PairwiseApart (rules : List Rule) : Prop := rules.Pairwise fun r r' => Apart r.1 r'.1

theorem startsAt_iff {r : Rule} {cs : List Char} {i : Nat} : r.startsAt cs i ↔ r.1 <+: cs.drop i :=
  List.isPrefixOf_iff_prefix

/-- A rule that is found begins at the place. -/
theorem startsAt_of_find? {rules : List Rule} {r : Rule} {cs : List Char} {i : Nat}
    (h : rules.find? (·.startsAt cs i) = some r) : r.startsAt cs i := by
  simpa using List.find?_some h

theorem startsAt_add (r : Rule) (cs : List Char) (m i : Nat) : r.startsAt cs (m + i) = r.startsAt (cs.drop m) i := by
  rw [Rule.startsAt, Rule.startsAt, List.drop_drop]

section

variable {mark sign : Char} {rules : List Rule}

/-- A pattern begins with its mark. -/
theorem Rule.Marked.not_startsAt {r : Rule} (h : r.Marked mark sign) {cs : List Char} {i : Nat}
    (hi : cs[i]? ≠ some mark) : r.startsAt cs i = false := by
  obtain ⟨name, hname, -⟩ := h.pattern
  rw [Bool.eq_false_iff, Ne, startsAt_iff, hname]
  rintro ⟨rest, hrest⟩
  refine hi ?_
  rw [← List.head?_drop, ← hrest]
  rfl

/-- Two patterns that begin at one place are the same. -/
theorem PairwiseApart.eq_of_startsAt (h : PairwiseApart rules) {r r' : Rule} (hr : r ∈ rules) (hr' : r' ∈ rules)
    {cs : List Char} {i : Nat} (hstarts : r.startsAt cs i) (hstarts' : r'.startsAt cs i) : r = r' := by
  by_contra hne
  have hapart : Apart r.1 r'.1 := h.forall hr hr' hne
  rcases List.prefix_or_prefix_of_prefix (startsAt_iff.1 hstarts) (startsAt_iff.1 hstarts') with h | h
  · exact hapart.1 h
  · exact hapart.2 h

/-- Each pattern is replaced by its own replacement, wherever it begins. -/
theorem PairwiseApart.replaceAt_of_startsAt (h : PairwiseApart rules) {r : Rule} (hr : r ∈ rules) {cs : List Char}
    {i : Nat} (hstarts : r.startsAt cs i) : replaceAt rules cs i = r.2 := by
  unfold replaceAt
  split
  · rename_i r' hfind
    rw [h.eq_of_startsAt (List.mem_of_find?_eq_some hfind) hr (startsAt_of_find? hfind) hstarts]
  · rename_i hfind
    exact absurd hstarts (List.find?_eq_none.1 hfind r hr)

/-! ## One pass -/

theorem replaceTogetherFrom_skip (cs rest : List Char) :
    replaceTogetherFrom rules cs.length (cs ++ rest) = replaceTogetherFrom rules 0 rest := by
  induction cs with
  | nil => rfl
  | cons c cs ih => simpa [replaceTogetherFrom] using ih

/-- A place at which a pattern begins. -/
theorem replaceTogetherFrom_of_find? {c : Char} {cs : List Char} {r : Rule}
    (hfind : rules.find? (·.startsAt (c :: cs) 0) = some r) (hne : r.1 ≠ []) :
    ∃ rest, c :: cs = r.1 ++ rest ∧
      replaceTogetherFrom rules 0 (c :: cs) = r.2 ++ replaceTogetherFrom rules 0 rest := by
  obtain ⟨rest, hrest⟩ := startsAt_iff.1 (startsAt_of_find? hfind)
  refine ⟨rest, hrest.symm, ?_⟩
  rw [replaceTogetherFrom, hfind]
  obtain ⟨d, name, hname⟩ := List.exists_cons_of_ne_nil hne
  rw [hname] at hrest
  obtain ⟨-, rfl⟩ : d = c ∧ name ++ rest = cs := List.cons.inj hrest
  simp only [hname, List.length_cons, Nat.add_sub_cancel, replaceTogetherFrom_skip]

/-- A place at which no pattern begins. -/
theorem replaceTogetherFrom_of_find?_none {c : Char} {cs : List Char}
    (hfind : rules.find? (·.startsAt (c :: cs) 0) = none) :
    replaceTogetherFrom rules 0 (c :: cs) = c :: replaceTogetherFrom rules 0 cs := by
  rw [replaceTogetherFrom, hfind]

theorem find?_of_ne_mark (h : ∀ r ∈ rules, r.Marked mark sign) {c : Char} (hc : c ≠ mark) (cs : List Char) :
    rules.find? (·.startsAt (c :: cs) 0) = none := by
  refine List.find?_eq_none.2 fun r hr => ?_
  rw [(h r hr).not_startsAt (by simpa using hc)]
  exact Bool.false_ne_true

/-- Nothing is found where the mark does not occur. -/
theorem replaceTogetherFrom_plain (h : ∀ r ∈ rules, r.Marked mark sign) {cs : List Char} (hcs : mark ∉ cs)
    (rest : List Char) : replaceTogetherFrom rules 0 (cs ++ rest) = cs ++ replaceTogetherFrom rules 0 rest := by
  induction cs with
  | nil => rfl
  | cons c cs ih =>
    simp only [List.mem_cons, not_or] at hcs
    rw [List.cons_append, replaceTogetherFrom_of_find?_none (find?_of_ne_mark h (Ne.symm hcs.1) _), ih hcs.2]
    rfl

/-- Replacements bring no name into being: a text that holds neither the mark nor
the sign begins the replaced text if, and only if, it begins the text. -/
theorem prefix_replaceTogetherFrom (h : ∀ r ∈ rules, r.Marked mark sign) {name cs : List Char} (hmark : mark ∉ name)
    (hsign : sign ∉ name) : name <+: replaceTogetherFrom rules 0 cs ↔ name <+: cs := by
  induction cs generalizing name with
  | nil => rfl
  | cons c cs ih =>
    cases name with
    | nil => simp
    | cons d name =>
      simp only [List.mem_cons, not_or] at hmark hsign
      cases hfind : rules.find? (·.startsAt (c :: cs) 0) with
      | none =>
        rw [replaceTogetherFrom_of_find?_none hfind, List.cons_prefix_cons, List.cons_prefix_cons,
          ih hmark.2 hsign.2]
      | some r =>
        have hr := h r (List.mem_of_find?_eq_some hfind)
        obtain ⟨pattern, hpattern, -⟩ := hr.pattern
        obtain ⟨rest, hrest, hreplace⟩ := replaceTogetherFrom_of_find? hfind (by simp [hpattern])
        obtain ⟨tail, htail⟩ := List.head?_eq_some_iff.1 hr.replacement.1
        rw [hreplace, hrest, hpattern, htail, List.cons_append, List.cons_append, List.cons_prefix_cons,
          List.cons_prefix_cons]
        exact ⟨fun h => absurd h.1 (Ne.symm hsign.1), fun h => absurd h.1 (Ne.symm hmark.1)⟩

theorem replaceTogetherFrom_nil (cs : List Char) : replaceTogetherFrom [] 0 cs = cs := by
  induction cs with
  | nil => rfl
  | cons c cs ih => rw [replaceTogetherFrom_of_find?_none rfl, ih]

/-- **One more name.** Replacing a name in the text in which others were replaced
is going over the text with one more rule. -/
theorem replaceFrom_replaceTogetherFrom (h : ∀ r ∈ rules, r.Marked mark sign) {name new : List Char}
    (hmark : mark ∉ name) (hsign : sign ∉ name) (cs : List Char) :
    replaceFrom (mark :: name) new 0 (replaceTogetherFrom rules 0 cs) =
      replaceTogetherFrom (rules ++ [(mark :: name, new)]) 0 cs := by
  induction hn : cs.length using Nat.strong_induction_on generalizing cs with
  | _ n ih =>
  cases cs with
  | nil => rfl
  | cons c cs =>
    have hlast : ∀ r, rules.find? (·.startsAt (c :: cs) 0) = none →
        (rules ++ [r]).find? (·.startsAt (c :: cs) 0) = if r.startsAt (c :: cs) 0 then some r else none := by
      intro r hfind
      rw [List.find?_append, hfind, Option.none_or, List.find?_cons]
      split <;> simp_all
    cases hfind : rules.find? (·.startsAt (c :: cs) 0) with
    | some r =>
      -- another name begins here, and its number is passed over
      have hr := h r (List.mem_of_find?_eq_some hfind)
      obtain ⟨pattern, hpattern, -⟩ := hr.pattern
      have hfind' : (rules ++ [(mark :: name, new)]).find? (·.startsAt (c :: cs) 0) = some r := by
        rw [List.find?_append, hfind, Option.some_or]
      obtain ⟨rest, hrest, hreplace⟩ := replaceTogetherFrom_of_find? hfind (by simp [hpattern])
      obtain ⟨rest', hrest', hreplace'⟩ := replaceTogetherFrom_of_find? hfind' (by simp [hpattern])
      obtain rfl : rest = rest' := List.append_cancel_left (hrest.symm.trans hrest')
      have hlength : rest.length < n := by
        rw [← hn, hrest, List.length_append, hpattern, List.length_cons]
        omega
      rw [hreplace, hreplace', replaceFrom_plain hr.replacement.2, ih _ hlength rest rfl]
    | none =>
      rw [replaceTogetherFrom_of_find?_none hfind]
      by_cases hstarts : Rule.startsAt (mark :: name, new) (c :: cs) 0
      · -- the name itself
        obtain ⟨rest, hrest⟩ := startsAt_iff.1 hstarts
        obtain ⟨rfl, rfl⟩ : mark = c ∧ name ++ rest = cs := List.cons.inj hrest
        have hfind' := (hlast _ hfind).trans (if_pos hstarts)
        obtain ⟨rest', hrest', hreplace'⟩ := replaceTogetherFrom_of_find? hfind' (by simp)
        obtain rfl : rest = rest' := by simpa using hrest'
        have hlength : rest.length < n := by
          rw [← hn, List.length_cons, List.length_append]
          omega
        rw [replaceTogetherFrom_plain h hmark, ← List.cons_append, replaceFrom_occurrence, ih _ hlength rest rfl]
        exact hreplace'.symm
      · -- no name at all
        have hfind' := (hlast _ hfind).trans (if_neg hstarts)
        have hprefix : (mark :: name).isPrefixOf (c :: replaceTogetherFrom rules 0 cs) = false := by
          rw [Bool.eq_false_iff, Ne, List.isPrefixOf_iff_prefix, List.cons_prefix_cons,
            prefix_replaceTogetherFrom h hmark hsign, ← List.cons_prefix_cons]
          exact fun hprefix => hstarts (startsAt_iff.2 hprefix)
        have hlength : cs.length < n := by
          rw [← hn, List.length_cons]
          omega
        rw [replaceFrom, hprefix, replaceTogetherFrom_of_find?_none hfind', ← ih _ hlength cs rfl]
        rfl

/-! ## Each place on its own -/

theorem flatMap_range_add (f : Nat → List Char) (m n : Nat) :
    (List.range (m + n)).flatMap f = (List.range m).flatMap f ++ (List.range n).flatMap fun i => f (m + i) := by
  rw [List.range_add, List.flatMap_append, List.flatMap_map]

/-- No pattern reaches over the place `m`. -/
def CutsAt (rules : List Rule) (cs : List Char) (m : Nat) : Prop :=
  ∀ j < m, ∀ r ∈ rules, r.startsAt cs j → j + r.1.length ≤ m

/-- Where no pattern reaches over a place, the text behind it stands for itself. -/
theorem CutsAt.replaceAt_add {cs : List Char} {m : Nat} (h : CutsAt rules cs m) (i : Nat) :
    replaceAt rules cs (m + i) = replaceAt rules (cs.drop m) i := by
  have hbefore : ((List.range m).any fun j => rules.any fun r =>
      r.startsAt cs j && decide (m + i < j + r.1.length)) = false := by
    simp only [List.any_eq_false, List.mem_range]
    intro j hj hany
    obtain ⟨r, hr, hcovers⟩ := List.any_eq_true.1 hany
    simp only [Bool.and_eq_true, decide_eq_true_eq] at hcovers
    have := h j hj r hr hcovers.1
    omega
  have hbehind : ((List.range i).map (m + ·)).any (fun j => rules.any fun r =>
      r.startsAt cs j && decide (m + i < j + r.1.length)) =
      (List.range i).any fun j => rules.any fun r => r.startsAt (cs.drop m) j && decide (i < j + r.1.length) := by
    rw [List.any_map]
    refine congrArg (List.range i).any (funext fun j => congrArg rules.any (funext fun r => ?_))
    rw [startsAt_add, Nat.add_assoc, decide_eq_decide.2 Nat.add_lt_add_iff_left]
  simp only [replaceAt, startsAt_add, List.range_add, List.any_append, hbefore, hbehind, Bool.false_or,
    List.getElem?_drop]

/-- The end of a pattern is such a place, and what stands before it becomes the
replacement. -/
theorem replaceAt_pattern (h : ∀ r ∈ rules, r.Marked mark sign) (hapart : PairwiseApart rules) {r : Rule}
    (hr : r ∈ rules) (rest : List Char) :
    CutsAt rules (r.1 ++ rest) r.1.length ∧
      (List.range r.1.length).flatMap (replaceAt rules (r.1 ++ rest)) = r.2 := by
  obtain ⟨name, hname, hmark, -⟩ := (h r hr).pattern
  have hstarts : r.startsAt (r.1 ++ rest) 0 := startsAt_iff.2 (List.prefix_append _ _)
  have hinside : ∀ j, 0 < j → j < r.1.length → ∀ r' ∈ rules, r'.startsAt (r.1 ++ rest) j = false := by
    intro j hpos hj r' hr'
    refine (h r' hr').not_startsAt fun hat => hmark ?_
    obtain ⟨j, rfl⟩ := Nat.exists_eq_succ_of_ne_zero hpos.ne'
    rw [List.getElem?_append_left hj, hname, List.getElem?_cons_succ] at hat
    exact List.mem_of_getElem? hat
  constructor
  · intro j hj r' hr' hstarts'
    rcases Nat.eq_zero_or_pos j with rfl | hpos
    · rw [hapart.eq_of_startsAt hr' hr hstarts' hstarts, Nat.zero_add]
    · rw [hinside j hpos hj r' hr'] at hstarts'
      cases hstarts'
  · have hlength : r.1.length = 1 + name.length := by rw [hname, List.length_cons, Nat.add_comm]
    have hempty : ∀ i ∈ List.range name.length, replaceAt rules (r.1 ++ rest) (1 + i) = [] := by
      intro i hi
      have hi : 1 + i < r.1.length := by
        have := List.mem_range.1 hi
        omega
      have hfind : rules.find? (·.startsAt (r.1 ++ rest) (1 + i)) = none := by
        refine List.find?_eq_none.2 fun r' hr' => ?_
        rw [hinside (1 + i) (by omega) hi r' hr']
        exact Bool.false_ne_true
      simp only [replaceAt, hfind]
      refine if_pos (List.any_eq_true.2 ⟨0, List.mem_range.2 (by omega), List.any_eq_true.2 ⟨r, hr, ?_⟩⟩)
      simp [hstarts, hi]
    rw [hlength, flatMap_range_add, List.flatMap_eq_nil_iff.2 hempty, List.append_nil]
    simp [hapart.replaceAt_of_startsAt hr hstarts]

/-- **The pass gives each place what it becomes on its own.** -/
theorem replaceTogetherFrom_eq (h : ∀ r ∈ rules, r.Marked mark sign) (hapart : PairwiseApart rules)
    (cs : List Char) :
    replaceTogetherFrom rules 0 cs = (List.range cs.length).flatMap (replaceAt rules cs) := by
  induction hn : cs.length using Nat.strong_induction_on generalizing cs with
  | _ n ih =>
  subst hn
  cases cs with
  | nil => rfl
  | cons c cs =>
    cases hfind : rules.find? (·.startsAt (c :: cs) 0) with
    | some r =>
      have hr := List.mem_of_find?_eq_some hfind
      obtain ⟨name, hname, -⟩ := (h r hr).pattern
      obtain ⟨rest, hrest, hreplace⟩ := replaceTogetherFrom_of_find? hfind (by simp [hname])
      obtain ⟨hcuts, hpattern⟩ := replaceAt_pattern h hapart hr rest
      have hlength : rest.length < (c :: cs).length := by
        rw [hrest, List.length_append, hname, List.length_cons]
        omega
      rw [hreplace, ih _ hlength rest rfl, hrest, List.length_append, flatMap_range_add, hpattern]
      simp only [hcuts.replaceAt_add, List.drop_left]
    | none =>
      have hcuts : CutsAt rules (c :: cs) 1 := by
        intro j hj r hr hstarts
        obtain rfl : j = 0 := by omega
        exact absurd hstarts (List.find?_eq_none.1 hfind r hr)
      have hfirst : (List.range 1).flatMap (replaceAt rules (c :: cs)) = [c] := by
        simp [replaceAt, hfind]
      rw [replaceTogetherFrom_of_find?_none hfind, ih _ (by simp) cs rfl, List.length_cons, Nat.add_comm,
        flatMap_range_add, hfirst]
      simp only [hcuts.replaceAt_add, List.drop_one, List.tail_cons, List.singleton_append]

end

/-! ## One name after another -/

/-- The rule that a replacement of a parameter stands for. -/
def Rule.ofParameter (p : String × String) : Rule := ('@' :: p.1.toList, p.2.toList)

/-- **Names replaced one after another are replaced at once.** -/
theorem replaceAll_foldl {pairs : List (String × String)}
    (h : ∀ r ∈ pairs.map Rule.ofParameter, r.Marked '@' '$') (hapart : PairwiseApart (pairs.map Rule.ofParameter))
    (text : String) :
    pairs.foldl (fun s p => replaceAll ("@" ++ p.1) p.2 s) text =
      replaceTogether (pairs.map Rule.ofParameter) text := by
  have hfold : ∀ (done rest : List (String × String)), done ++ rest = pairs →
      rest.foldl (fun s p => replaceAll ("@" ++ p.1) p.2 s)
          (String.ofList (replaceTogetherFrom (done.map Rule.ofParameter) 0 text.toList)) =
        String.ofList (replaceTogetherFrom (pairs.map Rule.ofParameter) 0 text.toList) := by
    intro done rest
    induction rest generalizing done with
    | nil =>
      rintro rfl
      rw [List.append_nil]
      rfl
    | cons p rest ih =>
      intro hpairs
      have hdone : ∀ r ∈ done.map Rule.ofParameter, r.Marked '@' '$' := by
        intro r hr
        refine h r ?_
        rw [← hpairs, List.map_append]
        exact List.mem_append_left _ hr
      have hp : (Rule.ofParameter p).Marked '@' '$' := h _ (List.mem_map_of_mem (hpairs ▸ by simp))
      obtain ⟨name, hname, hmark, hsign⟩ := hp.pattern
      obtain rfl : p.1.toList = name := (List.cons.inj hname).2
      rw [List.foldl_cons, ← ih (done ++ [p]) (by simpa using hpairs), replaceAll, Sql.toList_at,
        String.toList_ofList, replaceFrom_replaceTogetherFrom hdone hmark hsign, List.map_append]
      rfl
  have hall := hfold [] pairs rfl
  rw [List.map_nil, replaceTogetherFrom_nil, String.ofList_toList, replaceTogetherFrom_eq h hapart] at hall
  exact hall

end ParamQuery.Text

namespace ParamQuery

open Text Sql

/-! ## Taking over a command -/

/-- The rules by which a command is renumbered behind `n` parameters: the `i`-th
name, behind its sign, becomes the number `n + i`. -/
def renumbering (n : Nat) (names : List String) : List Rule :=
  names.mapIdx fun i name => ('@' :: name.toList, ("$" ++ toString (n + i + 1)).toList)

theorem mem_renumbering (n : Nat) {names : List String} {i : Nat} {name : String} (h : names[i]? = some name) :
    ('@' :: name.toList, ("$" ++ toString (n + i + 1)).toList) ∈ renumbering n names := by
  refine List.mem_of_getElem? (i := i) ?_
  rw [renumbering, List.getElem?_mapIdx, h]
  rfl

theorem map_replacements (n : Nat) (names : List String) :
    (replacements n names).map Rule.ofParameter = renumbering n names := by
  induction names generalizing n with
  | nil => rfl
  | cons name names ih =>
    rw [replacements, List.map_cons, ih, renumbering, renumbering, List.mapIdx_cons]
    simp only [Nat.add_assoc, Nat.add_comm 1]
    rfl

theorem map_fst_replacements (n : Nat) (names : List String) : (replacements n names).map (·.1) = names := by
  induction names generalizing n with
  | nil => rfl
  | cons name names ih => rw [replacements, List.map_cons, ih]

theorem numberFrom_eq_mapIdx (n : Nat) (es : List Entry) :
    numberFrom n es = es.mapIdx fun i e => (toString (n + i + 1), e.2) := by
  induction es generalizing n with
  | nil => rfl
  | cons e es ih =>
    rw [numberFrom, ih, List.mapIdx_cons]
    simp only [Nat.add_assoc, Nat.add_comm 1, Nat.add_zero]

/-- A number in positional style holds no sign of a named parameter. -/
theorem atSign_notMem_number (n : Nat) : '@' ∉ ("$" ++ toString n).toList := by
  rw [String.toList_append, List.mem_append, not_or]
  exact ⟨by decide, fun h => absurd (isDigit_of_mem_toString h) (by decide)⟩

theorem renumbering_marked {n : Nat} {names : List String}
    (h : ∀ name ∈ names, '@' ∉ name.toList ∧ '$' ∉ name.toList) :
    ∀ r ∈ renumbering n names, r.Marked '@' '$' := by
  intro r hr
  obtain ⟨i, hi, rfl⟩ := List.mem_mapIdx.1 hr
  refine ⟨⟨_, rfl, h _ (List.getElem_mem hi)⟩, ?_, atSign_notMem_number _⟩
  simp

theorem renumbering_apart {n : Nat} {names : List String}
    (h : names.Pairwise fun m m' => Apart m.toList m'.toList) : PairwiseApart (renumbering n names) := by
  rw [← map_fst_replacements n names, List.pairwise_map] at h
  rw [← map_replacements, PairwiseApart, List.pairwise_map]
  refine h.imp fun hnames => ?_
  simpa [Apart, Rule.ofParameter, List.cons_prefix_cons] using hnames

/-- **A command taken over in positional style is renamed at once.** Whatever the
registry holds and whatever the text says, each place of it becomes what it becomes
on its own; and where the sign and a name begin, this is the number of that name.
The bindings are appended under these numbers as they are. -/
theorem absorb_renumbers {settings : Settings} (hstyle : settings.style = .positional) (events : List Event)
    {c : Command} (hnames : ∀ name ∈ c.parameters.names, '@' ∉ name.toList ∧ '$' ∉ name.toList)
    (hapart : c.parameters.names.Pairwise fun m m' => Apart m.toList m'.toList) :
    let r := (Registry.ofSettings settings).takeAll events
    let rules := renumbering r.parameters.size c.parameters.names
    (r.absorb c).1 = replaceTogether rules c.text ∧
      (∀ (i : Nat) (name : String) (place : Nat), c.parameters.names[i]? = some name →
        '@' :: name.toList <+: c.text.toList.drop place →
        replaceAt rules c.text.toList place = ("$" ++ toString (r.parameters.size + i + 1)).toList) ∧
      (r.absorb c).2.parameters.toList =
        r.parameters.toList ++ c.parameters.toList.mapIdx fun i e => (toString (r.parameters.size + i + 1), e.2) := by
  intro r rules
  have hstart : (Registry.ofSettings settings).Counted [] := ⟨Registry.positional_ofSettings hstyle, rfl⟩
  obtain ⟨r', hfold, -, hlist⟩ :=
    (hstart.takeAll events).1.toPositional.absorb_fold c.parameters.toList c.text
  have habsorb : r.absorb c = ((replacements r.parameters.size c.parameters.names).foldl
      (fun s p => replaceAll ("@" ++ p.1) p.2 s) c.text, r') := hfold
  have hrules : PairwiseApart rules := renumbering_apart hapart
  refine ⟨?_, ?_, ?_⟩
  · rw [habsorb, replaceAll_foldl, map_replacements]
    · rw [map_replacements]
      exact renumbering_marked hnames
    · rw [map_replacements]
      exact hrules
  · intro i name place hname hplace
    exact hrules.replaceAt_of_startsAt (mem_renumbering _ hname) (startsAt_iff.2 hplace)
  · rw [habsorb, ← numberFrom_eq_mapIdx]
    exact hlist

/-- A command whose text holds its names next to each other, inside of a literal and
in front of other characters. -/
def crowdedCommand : Command where
  text := "@b@@ac@a '@b'$1"
  parameters := ⟨[("b", ⟨.int 7, none⟩), ("ac", ⟨.string "x", some .text⟩)]⟩

/-- The number that the text holds already is kept, and so is the name that only
begins another one. -/
theorem crowdedCommand_renumbered :
    (∀ name ∈ crowdedCommand.parameters.names, '@' ∉ name.toList ∧ '$' ∉ name.toList) ∧
      (crowdedCommand.parameters.names.Pairwise fun m m' => Apart m.toList m'.toList) ∧
      let r := (Registry.ofSettings { style := .positional }).takeAll [.bound ⟨.int 1, none⟩]
      (r.absorb crowdedCommand).1 = "$2@$3@a '$2'$1" ∧
        (r.absorb crowdedCommand).2.parameters.toList =
          [("1", ⟨.int 1, none⟩), ("2", ⟨.int 7, none⟩), ("3", ⟨.string "x", some .text⟩)] := by
  have hnames : ∀ name ∈ crowdedCommand.parameters.names, '@' ∉ name.toList ∧ '$' ∉ name.toList := by decide
  have hapart : crowdedCommand.parameters.names.Pairwise fun m m' => Apart m.toList m'.toList := by
    simp [crowdedCommand, Parameters.names, Apart]
  have hstyle : ({ style := .positional } : Settings).style = .positional := rfl
  obtain ⟨htext, -, hlist⟩ := absorb_renumbers hstyle [.bound ⟨.int 1, none⟩] hnames hapart
  exact ⟨hnames, hapart, htext, hlist⟩

end ParamQuery
