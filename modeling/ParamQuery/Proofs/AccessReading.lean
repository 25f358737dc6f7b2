/-
Names, columns and accesses to JSON values, read back from their text. A reader of a
text in quotes takes two quotes for one of the content and stops behind a quote with
no other behind it; so it gives back what was quoted, whatever the content is, when
what follows does not begin with a quote (`readQuoted_eq_some_iff`).

A column is two names, and an access is one step after the other, of which the last
has an arrow of its own. Their readers accept the texts of columns and of accesses and
nothing else (`readColumn_eq_some_iff`, `readAccess_eq_some_iff`), and a text is that of
one column or access only (`access_reread`).
-/
import ParamQuery.Sql.Token
import Mathlib.Data.List.Infix

namespace ParamQuery.Sql

/-! ## Texts in quotes -/

/-- The content up to the quote that ends it, and what is behind that quote. -/
def readContent (quote : Char) : List Char → Option (List Char × List Char)
  | [] => none
  | [c] => if c = quote then some ([], []) else none
  | c :: d :: rest =>
    if c = quote then
      if d = quote then (readContent quote rest).map (Prod.map (List.cons quote) id) else some ([], d :: rest)
    else (readContent quote (d :: rest)).map (Prod.map (List.cons c) id)

/-- The text in quotes at the start, and what is behind it. -/
def readQuoted (quote : Char) : List Char → Option (String × List Char)
  | [] => none
  | c :: rest => if c = quote then (readContent quote rest).map (Prod.map String.ofList id) else none

theorem readContent_cons_of_ne {quote c : Char} (h : c ≠ quote) (cs : List Char) :
    readContent quote (c :: cs) = (readContent quote cs).map (Prod.map (List.cons c) id) := by
  cases cs <;> simp [readContent, h]

theorem readContent_doubled (quote : Char) (cs : List Char) {rest : List Char} (h : rest.head? ≠ some quote) :
    readContent quote (doubled quote cs ++ quote :: rest) = some (cs, rest) := by
  induction cs with
  | nil =>
    cases rest with
    | nil => simp [doubled, readContent]
    | cons d rest =>
      have hd : d ≠ quote := by simpa using h
      simp [doubled, readContent, hd]
  | cons c cs ih =>
    by_cases hc : c = quote
    · subst hc
      simp [doubled, readContent, ih]
    · simp [doubled, hc, readContent_cons_of_ne hc, ih]

/-- What is read is the content with its quotes doubled, up to a quote that stands alone. -/
theorem eq_of_readContent {quote : Char} {cs content rest : List Char}
    (h : readContent quote cs = some (content, rest)) :
    cs = doubled quote content ++ quote :: rest ∧ rest.head? ≠ some quote := by
  fun_induction readContent quote cs generalizing content rest with
  | case1 | case3 => cases h
  | case2 =>
    cases h
    simp [doubled]
  | case4 tail ih =>
    obtain ⟨⟨inner, behind⟩, hread, hinner⟩ := Option.map_eq_some_iff.1 h
    cases hinner
    obtain ⟨rfl, hrest⟩ := ih hread
    exact ⟨by simp [doubled], hrest⟩
  | case5 d tail hd =>
    cases h
    exact ⟨by simp [doubled], by simpa using hd⟩
  | case6 c d tail hc ih =>
    obtain ⟨⟨inner, behind⟩, hread, hinner⟩ := Option.map_eq_some_iff.1 h
    cases hinner
    obtain ⟨htail, hrest⟩ := ih hread
    exact ⟨by simp [doubled, hc, htail], hrest⟩

theorem toList_enclose (quote : Char) (s : String) (rest : List Char) :
    (enclose quote s).toList ++ rest = quote :: (doubled quote s.toList ++ quote :: rest) := by
  simp [enclose]

/-- **A text in quotes is read back**, whatever its content, and nothing else is. -/
theorem readQuoted_eq_some_iff {quote : Char} {cs : List Char} {s : String} {rest : List Char} :
    readQuoted quote cs = some (s, rest) ↔ cs = (enclose quote s).toList ++ rest ∧ rest.head? ≠ some quote := by
  rw [toList_enclose]
  constructor
  · intro h
    cases cs with
    | nil => cases h
    | cons c cs =>
      by_cases hc : c = quote
      · rw [readQuoted, if_pos hc] at h
        obtain ⟨⟨content, behind⟩, hread, hcontent⟩ := Option.map_eq_some_iff.1 h
        cases hcontent
        obtain ⟨rfl, hrest⟩ := eq_of_readContent hread
        exact ⟨by simp [hc], hrest⟩
      · rw [readQuoted, if_neg hc] at h
        cases h
  · rintro ⟨rfl, hrest⟩
    rw [readQuoted, if_pos rfl, readContent_doubled quote s.toList hrest]
    simp

theorem length_lt_of_readQuoted {quote : Char} {cs : List Char} {s : String} {rest : List Char}
    (h : readQuoted quote cs = some (s, rest)) : rest.length < cs.length := by
  rw [(readQuoted_eq_some_iff.1 h).1, toList_enclose]
  simp only [List.length_append, List.length_cons]
  omega

/-! ## Columns -/

/-- A table and a column at the start, and what is behind them. -/
def readColumn (cs : List Char) : Option (String × String × List Char) :=
  match readQuoted '"' cs with
  | some (table, '.' :: rest) => (readQuoted '"' rest).map (Prod.mk table)
  | _ => none

theorem toList_qualified (table column : String) (rest : List Char) :
    (Fragment.render (.qualified table column)).toList ++ rest =
      (quoteName table).toList ++ '.' :: ((quoteName column).toList ++ rest) := by
  simp [Fragment.qualified, Token.render]

theorem readColumn_eq_some_iff {cs : List Char} {table column : String} {rest : List Char} :
    readColumn cs = some (table, column, rest) ↔
      cs = (Fragment.render (.qualified table column)).toList ++ rest ∧ rest.head? ≠ some '"' := by
  rw [toList_qualified]
  constructor
  · intro h
    unfold readColumn at h
    split at h
    next table' behind htable =>
      obtain ⟨⟨column', rest'⟩, hcolumn, hread⟩ := Option.map_eq_some_iff.1 h
      cases hread
      obtain ⟨hcs, -⟩ := readQuoted_eq_some_iff.1 htable
      obtain ⟨hbehind, hrest⟩ := readQuoted_eq_some_iff.1 hcolumn
      rw [hbehind] at hcs
      exact ⟨hcs, hrest⟩
    next => cases h
  · rintro ⟨hcs, hrest⟩
    have htable : readQuoted '"' ((quoteName table).toList ++ '.' :: ((quoteName column).toList ++ rest)) =
        some (table, '.' :: ((quoteName column).toList ++ rest)) := readQuoted_eq_some_iff.2 ⟨rfl, by simp⟩
    have hcolumn : readQuoted '"' ((quoteName column).toList ++ rest) = some (column, rest) :=
      readQuoted_eq_some_iff.2 ⟨rfl, hrest⟩
    rw [hcs, readColumn, htable]
    simp only [hcolumn, Option.map_some]

/-! ## Accesses to JSON values -/

/-- A step in front of the ones read behind it. Its arrow does not give text, so there
has to be one. -/
def stepBefore (key : String) : List String × List Char → Option (List String × List Char)
  | ([], _) => none
  | (next :: keys, rest) => some (key :: next :: keys, rest)

/-- The keys of an access at the start, and what is behind it. -/
def readAccess (cs : List Char) : Option (List String × List Char) :=
  match cs with
  | '-' :: '>' :: '>' :: rest => (readQuoted '\'' rest).map (Prod.map ([·]) id)
  | '-' :: '>' :: rest =>
    match _ : readQuoted '\'' rest with
    | none => none
    | some (key, behind) => (readAccess behind).bind (stepBefore key)
  | _ => some ([], cs)
termination_by cs.length
decreasing_by
  have := length_lt_of_readQuoted ‹_›
  simp only [List.length_cons]
  omega

/-- The text of an access to a value in a JSON document. -/
def accessText (steps : List String) : List Char := (Fragment.render (.traversal steps)).toList

theorem accessText_singleton (key : String) (rest : List Char) :
    accessText [key] ++ rest = '-' :: '>' :: '>' :: ((quoteKey key).toList ++ rest) := by
  simp [accessText, Fragment.traversal, Token.render]

theorem accessText_cons_cons (key next : String) (keys : List String) (rest : List Char) :
    accessText (key :: next :: keys) ++ rest =
      '-' :: '>' :: ((quoteKey key).toList ++ (accessText (next :: keys) ++ rest)) := by
  simp [accessText, Fragment.traversal, Token.render]

theorem readAccess_of_not_arrow {cs : List Char} (h : ¬['-', '>'] <+: cs) : readAccess cs = some ([], cs) := by
  unfold readAccess
  split
  · simp at h
  · simp at h
  · rfl

/-- Behind a key, there is no quote in front of the next step. -/
theorem head?_accessText (key : String) (keys : List String) (rest : List Char) :
    (accessText (key :: keys) ++ rest).head? ≠ some '\'' := by
  cases keys with
  | nil => simp [accessText_singleton]
  | cons next keys => simp [accessText_cons_cons]

theorem readAccess_of_readQuoted {cs : List Char} {key : String} {behind : List Char}
    (h : readQuoted '\'' cs = some (key, behind)) :
    readAccess ('-' :: '>' :: cs) = (readAccess behind).bind (stepBefore key) := by
  have hcs := (readQuoted_eq_some_iff.1 h).1
  rw [toList_enclose] at hcs
  rw [hcs] at h ⊢
  rw [readAccess]
  · split
    next hnone => simp [h] at hnone
    next hsome =>
      cases h.symm.trans hsome
      rfl
  · simp

theorem readAccess_accessText (steps : List String) {rest : List Char} (harrow : steps = [] → ¬['-', '>'] <+: rest)
    (hquote : steps ≠ [] → rest.head? ≠ some '\'') : readAccess (accessText steps ++ rest) = some (steps, rest) := by
  induction steps with
  | nil => exact readAccess_of_not_arrow (harrow rfl)
  | cons key steps ih =>
    cases steps with
    | nil =>
      have hkey : readQuoted '\'' ((quoteKey key).toList ++ rest) = some (key, rest) :=
        readQuoted_eq_some_iff.2 ⟨rfl, hquote (by simp)⟩
      rw [accessText_singleton, readAccess, hkey]
      rfl
    | cons next keys =>
      have hkey : readQuoted '\'' ((quoteKey key).toList ++ (accessText (next :: keys) ++ rest)) =
          some (key, accessText (next :: keys) ++ rest) :=
        readQuoted_eq_some_iff.2 ⟨rfl, head?_accessText next keys rest⟩
      rw [accessText_cons_cons, readAccess_of_readQuoted hkey, ih (by simp) fun _ => hquote (by simp)]
      rfl

theorem eq_of_readAccess {cs : List Char} {steps : List String} {rest : List Char}
    (h : readAccess cs = some (steps, rest)) :
    cs = accessText steps ++ rest ∧ (steps = [] → ¬['-', '>'] <+: rest) ∧ (steps ≠ [] → rest.head? ≠ some '\'') := by
  fun_induction readAccess cs generalizing steps rest with
  | case1 tail =>
    obtain ⟨⟨key, behind⟩, hkey, hread⟩ := Option.map_eq_some_iff.1 h
    cases hread
    obtain ⟨htail, hrest⟩ := readQuoted_eq_some_iff.1 hkey
    rw [htail]
    exact ⟨(accessText_singleton key _).symm, by simp, fun _ => hrest⟩
  | case2 => cases h
  | case3 tail hlast key behind hkey ih =>
    obtain ⟨⟨keys, behind'⟩, hkeys, hstep⟩ := Option.bind_eq_some_iff.1 h
    cases keys with
    | nil => cases hstep
    | cons next keys =>
      cases hstep
      obtain ⟨hbehind, -, hrest⟩ := ih hkeys
      obtain ⟨htail, -⟩ := readQuoted_eq_some_iff.1 hkey
      rw [htail, hbehind]
      exact ⟨(accessText_cons_cons key next keys rest).symm, by simp, fun _ => hrest (by simp)⟩
  | case4 cs hlast hstep =>
    cases h
    refine ⟨rfl, fun _ => ?_, fun hne => absurd rfl hne⟩
    rintro ⟨tail, rfl⟩
    exact hstep tail rfl

/-- **An access is read back** step by step, whatever its keys, and nothing else is. -/
theorem readAccess_eq_some_iff {cs : List Char} {steps : List String} {rest : List Char} :
    readAccess cs = some (steps, rest) ↔ cs = accessText steps ++ rest ∧
      (steps = [] → ¬['-', '>'] <+: rest) ∧ (steps ≠ [] → rest.head? ≠ some '\'') := by
  constructor
  · exact eq_of_readAccess
  · rintro ⟨hcs, harrow, hquote⟩
    rw [hcs]
    exact readAccess_accessText steps harrow hquote

/-- **Accesses, names and columns have one reading.** Behind any of them stands a text that
could not prolong it; then the reader gives back the steps, the name or the table and the
column, whatever characters they hold, and this text as it is. What a reader accepts is the
text of what it gives back; and two accesses with other steps are other texts. -/
theorem access_reread :
    (∀ (steps : List String) (rest : List Char), rest.head? ≠ some '\'' → ¬['-', '>'] <+: rest →
      readAccess ((Fragment.render (.traversal steps)).toList ++ rest) = some (steps, rest)) ∧
    (∀ (name : String) (rest : List Char), rest.head? ≠ some '"' →
      readQuoted '"' ((quoteName name).toList ++ rest) = some (name, rest)) ∧
    (∀ (table column : String) (rest : List Char), rest.head? ≠ some '"' →
      readColumn ((Fragment.render (.qualified table column)).toList ++ rest) = some (table, column, rest)) ∧
    ((∀ cs steps rest, readAccess cs = some (steps, rest) → cs = (Fragment.render (.traversal steps)).toList ++ rest) ∧
      (∀ cs name rest, readQuoted '"' cs = some (name, rest) → cs = (quoteName name).toList ++ rest) ∧
      ∀ cs table column rest, readColumn cs = some (table, column, rest) →
        cs = (Fragment.render (.qualified table column)).toList ++ rest) ∧
    Function.Injective fun steps : List String => Fragment.render (.traversal steps) := by
  have haccess (steps : List String) (rest : List Char) (hquote : rest.head? ≠ some '\'')
      (harrow : ¬['-', '>'] <+: rest) :
      readAccess ((Fragment.render (.traversal steps)).toList ++ rest) = some (steps, rest) :=
    readAccess_accessText steps (fun _ => harrow) fun _ => hquote
  refine ⟨haccess, ?_, ?_, ⟨?_, ?_, ?_⟩, ?_⟩
  · exact fun name rest hrest => readQuoted_eq_some_iff.2 ⟨rfl, hrest⟩
  · exact fun table column rest hrest => readColumn_eq_some_iff.2 ⟨rfl, hrest⟩
  · exact fun cs steps rest h => (readAccess_eq_some_iff.1 h).1
  · exact fun cs name rest h => (readQuoted_eq_some_iff.1 h).1
  · exact fun cs table column rest h => (readColumn_eq_some_iff.1 h).1
  · intro steps steps' htext
    -- with nothing behind them, the same text is read as both
    have hread := haccess steps [] (by simp) (by simp)
    have hread' := haccess steps' [] (by simp) (by simp)
    have hsame : Fragment.render (.traversal steps) = Fragment.render (.traversal steps') := htext
    rw [hsame, hread'] at hread
    simpa using hread.symm

/-- Keys and names that look like the end of themselves and like further steps. -/
theorem access_reread_arrows :
    (" = '1'".toList.head? ≠ some '\'' ∧ ¬['-', '>'] <+: " = '1'".toList ∧
      readAccess "->'x''->>''y'->>'' = '1'".toList = some (["x'->>'y", ""], " = '1'".toList)) ∧
    (".\"b\"".toList.head? ≠ some '"' ∧ readQuoted '"' "\"a\"\"\".\"b\"".toList = some ("a\"", ".\"b\"".toList)) ∧
    (" = 1".toList.head? ≠ some '"' ∧
      readColumn "\"a\"\".\"\"b\".\"\" = 1".toList = some ("a\".\"b", "", " = 1".toList)) := by
  refine ⟨⟨by decide, by decide, ?_⟩, ⟨by decide, ?_⟩, ⟨by decide, ?_⟩⟩
  · exact access_reread.1 ["x'->>'y", ""] _ (by decide) (by decide)
  · exact access_reread.2.1 "a\"" _ (by decide)
  · exact access_reread.2.2.1 "a\".\"b" "" _ (by decide)

end ParamQuery.Sql
