/-
Select lists as lists. `listItems` cuts a text at every comma with a blank behind
it that stands neither in parentheses nor in quotes.

`select_list_items`: the list of a source is cut into one item for each of its
columns, or the one item that stands for all columns when none are known, and the
number of rows of a group is one item more, whatever its keys are. A source that
counts groups has no item for all columns, so where no columns are known its list
begins with an empty one (`uncountedColumns_list`).
-/
import ParamQuery.Proofs.JoinKeys
import ParamQuery.Proofs.Projections
import ParamQuery.Proofs.WhereClause

namespace ParamQuery.Sql

/-! ## Cutting lists -/

/-- Lexemes cut at the commas with a blank behind them that stand in no
parentheses. -/
def cutItems : Nat → List Lexeme → List (List Lexeme)
  | _, [] => [[]]
  | 0, .char ',' :: .char ' ' :: rest => [] :: cutItems 0 rest
  | depth, x :: rest => (cutItems ((nestLexeme depth x).getD 0) rest).modifyHead (x :: ·)

/-- The items of a list, `none` when it ends inside quotes. -/
def listItems (s : String) : Option (List String) :=
  (lex s).map fun l => (cutItems 0 l).map fun item => String.ofList (item.flatMap Lexeme.text)

/-- The depth behind a lexeme, `none` when it is a comma outside of parentheses. -/
def uncutLexeme (depth : Nat) (x : Lexeme) : Option Nat :=
  if depth = 0 ∧ x = .char ',' then none else nestLexeme depth x

/-- Lexemes that lead from one depth to another, with no comma outside of
parentheses. -/
def Uncut (a b : Nat) (l : List Lexeme) : Prop := l.foldlM uncutLexeme a = some b

instance (a b : Nat) (l : List Lexeme) : Decidable (Uncut a b l) := inferInstanceAs (Decidable (_ = _))

namespace Uncut

variable {a b c : Nat} {l k : List Lexeme}

theorem append (h : Uncut a b l) (h' : Uncut b c k) : Uncut a c (l ++ k) := by
  rw [Uncut, List.foldlM_append, h]
  exact h'

/-- Inside of parentheses there may be commas. -/
theorem of_nesting (h : nesting a l = some b) : Uncut (a + 1) (b + 1) l := by
  induction l generalizing a with
  | nil =>
    cases h
    rfl
  | cons x l ih =>
    rw [nesting_cons] at h
    obtain ⟨d, hd, hrest⟩ := Option.bind_eq_some_iff.1 h
    have hx : uncutLexeme (a + 1) x = some (d + 1) := by
      rw [uncutLexeme, if_neg (by simp)]
      exact nestLexeme_lift hd 1
    rw [Uncut, List.foldlM_cons, hx]
    exact ih hrest

end Uncut

theorem cutItems_cons {depth d : Nat} {x : Lexeme} (h : uncutLexeme depth x = some d) (rest : List Lexeme) :
    cutItems depth (x :: rest) = (cutItems d rest).modifyHead (x :: ·) := by
  unfold uncutLexeme at h
  split at h
  · cases h
  · rename_i hcomma
    rw [cutItems, h, Option.getD_some]
    rintro _ rfl hx _
    exact absurd ⟨rfl, hx⟩ hcomma

/-- What is uncut belongs to one item. -/
theorem cutItems_append {a b : Nat} {l : List Lexeme} (h : Uncut a b l) (rest : List Lexeme) :
    cutItems a (l ++ rest) = (cutItems b rest).modifyHead (l ++ ·) := by
  induction l generalizing a with
  | nil =>
    cases h
    rw [List.nil_append]
    cases cutItems b rest <;> rfl
  | cons x l ih =>
    rw [Uncut, List.foldlM_cons] at h
    obtain ⟨d, hx, hl⟩ := Option.bind_eq_some_iff.1 h
    rw [List.cons_append, cutItems_cons hx, ih hl]
    cases cutItems b rest <;> rfl

/-- **A list is cut where its items were joined.** -/
theorem cutItems_intercalate {ls : List (List Lexeme)} (hne : ls ≠ []) (h : ∀ l ∈ ls, Uncut 0 0 l) :
    cutItems 0 (List.intercalate [.char ',', .char ' '] ls) = ls := by
  induction ls with
  | nil => exact absurd rfl hne
  | cons l ls ih =>
    have hl := cutItems_append (h l (by simp))
    cases ls with
    | nil => simpa [cutItems] using hl []
    | cons l' ls =>
      rw [List.intercalate_cons_cons, List.append_assoc, hl, List.cons_append, List.cons_append, List.nil_append,
        cutItems, ih (by simp) fun k hk => h k (by simp [hk])]
      simp

theorem lexemes_separated {β : Type} (x : β → List Lexeme) (fs : List (Fragment β)) :
    (Fragment.separated ", " fs).flatMap (Token.lexemes x) =
      List.intercalate [.char ',', .char ' '] (fs.map fun f => f.flatMap (Token.lexemes x)) := by
  have hcomma : Token.lexemes x (.text ", ") = [.char ',', .char ' '] := by
    rw [Token.lexemes]
    decide
  induction fs with
  | nil => rfl
  | cons f fs ih =>
    cases fs with
    | nil => simp [Fragment.separated]
    | cons g fs =>
      rw [Fragment.separated, List.flatMap_append, List.flatMap_cons, ih, hcomma]
      · simp [List.intercalate_cons_cons]
      · simp

end ParamQuery.Sql

namespace ParamQuery

open Sql

/-- Tokens that are read as one item, with those of their slots. -/
structure IsItem (spell : Slot × String → Fragment String) (f : Fragment (Slot × String)) : Prop where
  legible : f.Legible
  spelled : ∀ p ∈ f.slots, Spelled p (spell p)
  uncut : Uncut 0 0 (f.flatMap (Token.lexemes (spelling spell)))

/-- **A list of items is cut into its items.** -/
theorem listItems_intercalate {spell : Slot × String → Fragment String} {l : List (Fragment (Slot × String))}
    (hne : l ≠ []) (h : ∀ f ∈ l, IsItem spell f) :
    listItems (", ".intercalate (l.map fun f => Fragment.render (f.map (Token.map Prod.snd)))) =
      some (l.map fun f => Fragment.render (f.map (Token.map Prod.snd))) := by
  have hspelled : ∀ p ∈ (Fragment.separated ", " l).slots, Spelled p (spell p) := by
    intro p hp
    rw [Fragment.slots_separated] at hp
    obtain ⟨f, hf, hp⟩ := List.mem_flatMap.1 hp
    exact (h f hf).spelled p hp
  have hlex := lex_spelled (.separated (by decide) fun f hf => (h f hf).legible) hspelled
  rw [Fragment.separated_map, render_separated_eq, List.map_map, Function.comp_def] at hlex
  have huncut : ∀ k ∈ l.map fun f => f.flatMap (Token.lexemes (spelling spell)), Uncut 0 0 k := by
    simpa using fun f hf => (h f hf).uncut
  rw [listItems, hlex, Option.map_some, lexemes_separated, cutItems_intercalate (by simpa using hne) huncut,
    List.map_map]
  refine congrArg some (List.map_congr_left fun f hf => ?_)
  rw [Function.comp, lex_text (lex_spelled (h f hf).legible (h f hf).spelled), String.ofList_toList]

/-! ## The items of a source -/

namespace Source

/-- The item of a column, given as a member and its column's name. Where groups are
counted it carries the name of the member. -/
def columnItem (s : Source) (sc : Scope) (column : String × String) : String :=
  quoteName (sc.tableName s.table) ++ "." ++ quoteName column.2 ++
    (if s.groupJoin.isSome then " AS " ++ quoteName (s.typeName ++ "." ++ column.1) else "")

/-- An item for each column of a source. -/
def columnItems (s : Source) (sc : Scope) : List String :=
  (sc.sourceColumns s.table s.members).map (s.columnItem sc)

/-- The item with the number of rows of a group, with the texts of the keys. -/
def countItem (s : Source) (sc : Scope) (inner outer : String) : String :=
  "(SELECT COUNT(*) FROM " ++ quoteName (sc.tableName s.table) ++ " AS " ++
    quoteName ("temp_" ++ sc.tableName s.table) ++ " WHERE " ++ inner ++ " = " ++ outer ++ ")" ++ " AS " ++
    quoteName (s.typeName ++ ".__GROUP_COUNT")

/-- The item of a column in tokens. -/
def columnFragment {β : Type} (s : Source) (sc : Scope) (column : String × String) : Fragment β :=
  [Token.name (sc.tableName s.table), Token.text ".", Token.name column.2] ++
    (if s.groupJoin.isSome then [Token.text " AS ", Token.name (s.typeName ++ "." ++ column.1)] else [])

/-- The item with the number of rows in tokens, with those of the keys. -/
def countFragment {β : Type} (s : Source) (sc : Scope) (inner outer : Fragment β) : Fragment β :=
  Token.text "(SELECT COUNT(*) FROM " :: (([Token.name (sc.tableName s.table), Token.text " AS ",
    Token.name ("temp_" ++ sc.tableName s.table), Token.text " WHERE "] ++ (inner ++ Token.text " = " :: outer)) ++
    [Token.text ")", Token.text " AS ", Token.name (s.typeName ++ ".__GROUP_COUNT")])

variable {β γ : Type} (s : Source) (sc : Scope) (column : String × String)

theorem render_columnFragment : Fragment.render (s.columnFragment sc column) = s.columnItem sc column := by
  unfold columnFragment columnItem
  split <;> simp [Token.render, String.append_assoc]

theorem map_columnFragment (f : β → γ) :
    (s.columnFragment sc column).map (Token.map f) = s.columnFragment sc column := by
  unfold columnFragment
  split <;> rfl

theorem columnFragment_isItem (spell : Slot × String → Fragment String) :
    IsItem spell (s.columnFragment sc column) := by
  have hlegible : Fragment.Legible ([Token.name (sc.tableName s.table), Token.text ".", Token.name column.2] :
      Fragment (Slot × String)) := (Fragment.Legible.name _).join (by decide) (.name _)
  have hname (n : String) : Uncut 0 0 [Lexeme.quoted '"' n] := rfl
  have huncut := (hname (sc.tableName s.table)).append (Uncut.append (b := 0) (by decide : Uncut 0 0 (textLexemes "."))
    (hname column.2))
  unfold columnFragment
  split
  · refine ⟨hlegible.join (by decide) (.name _), by simp [Token.slots], ?_⟩
    have hlabel : Uncut 0 0 (textLexemes " AS ") := by decide
    simpa [Token.lexemes] using huncut.append (hlabel.append (hname (s.typeName ++ "." ++ column.1)))
  · exact ⟨by rwa [List.append_nil], by simp [Token.slots], by simpa [Token.lexemes] using huncut⟩

theorem render_countFragment (inner outer : Fragment String) :
    Fragment.render (s.countFragment sc inner outer) = s.countItem sc inner.render outer.render := by
  unfold countFragment countItem
  simp only [List.cons_append, List.nil_append, Fragment.render_cons, Fragment.render_append, Fragment.render_nil,
    Token.render, String.append_empty]
  simp only [String.append_assoc, -String.reduceAppend]

theorem map_countFragment (f : β → γ) (inner outer : Fragment β) :
    (s.countFragment sc inner outer).map (Token.map f) =
      s.countFragment sc (inner.map (Token.map f)) (outer.map (Token.map f)) := by
  simp [countFragment, Token.map]

/-- Whatever the keys are, they stand in parentheses. -/
theorem countFragment_isItem {spell : Slot × String → Fragment String} {inner outer : Fragment (Slot × String)}
    (hinner : inner.Legible ∧ inner.Level) (houter : outer.Legible ∧ outer.Level)
    (hspell : ∀ p ∈ inner.slots ++ outer.slots, Spelled p (spell p)) :
    IsItem spell (s.countFragment sc inner outer) := by
  refine ⟨?_, ?_, ?_⟩
  · have hcondition := (Fragment.Legible.name ("temp_" ++ sc.tableName s.table)).join (s := " WHERE ") (by decide)
      (hinner.1.join (s := " = ") (by decide) houter.1)
    have hcount := Fragment.Legible.cons (s := "(SELECT COUNT(*) FROM ") (by decide)
      (((Fragment.Legible.name (sc.tableName s.table)).join (s := " AS ") (by decide) hcondition).close (s := ")")
        (by decide))
    have hitem := hcount.join (s := " AS ") (by decide) (.name (s.typeName ++ ".__GROUP_COUNT"))
    simpa only [countFragment, List.cons_append, List.nil_append, List.append_assoc] using hitem
  · simpa [countFragment, Token.slots] using hspell
  · have hinside : Fragment.Level ([Token.name (sc.tableName s.table), Token.text " AS ",
        Token.name ("temp_" ++ sc.tableName s.table), Token.text " WHERE "] ++ (inner ++ Token.text " = " :: outer)) :=
      .append (b := 0) (by rfl) (hinner.2.join (by decide) houter.2)
    have hlexemes := hinside.lexemes (x := spelling spell) fun p hp =>
      (hspell p (by simpa [Token.slots] using hp)).balanced
    have hopening : Uncut 0 1 (textLexemes "(SELECT COUNT(*) FROM ") := by decide
    have hclosing : Uncut 1 0 (textLexemes ")" ++ textLexemes " AS ") := by decide
    have hname : Uncut 0 0 [Lexeme.quoted '"' (s.typeName ++ ".__GROUP_COUNT")] := rfl
    have hitem := (hopening.append (.of_nesting hlexemes)).append (hclosing.append hname)
    simpa [countFragment, Token.lexemes] using hitem

end Source

/-! ## Settling the list of a source -/

theorem settleTerm_list_of_forall {α : Type} {l : List α} {t : α → Term Slot} {text : α → String}
    (h : ∀ a ∈ l, settleTerm (t a) = pure (text a)) :
    settleTerm (.list (l.map t)) = pure (", ".intercalate (l.map text)) := by
  have htexts : (l.map t).mapM settleTerm = pure (l.map text) := by
    induction l with
    | nil => rfl
    | cons a l ih =>
      rw [List.map_cons, List.mapM_cons, h a (by simp), ih fun b hb => h b (by simp [hb])]
      simp
  rw [settleTerm_list, htexts, pure_bind]

theorem settleTerm_ownColumn (table name : String) :
    settleTerm (.column (.table table) name []) = pure (quoteName table ++ "." ++ quoteName name) := by
  simp [settleTerm, Term.mapM, Term.walk, Term.render, Term.fragment, Token.render, Fragment.traversal,
    String.append_assoc]

theorem settleTerm_allColumns (table : String) :
    settleTerm (.allColumns table) = pure (quoteName table ++ ".*") := by
  simp [settleTerm, Term.mapM, Term.walk, Term.render, Term.fragment, Token.render]

theorem settleTerm_groupCount (table copy : String) (i o : Term Slot) :
    settleTerm (.groupCount table copy i o) = do
      let inner ← settleTerm i
      let outer ← settleTerm o
      return "(SELECT COUNT(*) FROM " ++ quoteName table ++ " AS " ++ quoteName copy ++ " WHERE " ++ inner ++
        " = " ++ outer ++
        ")" := by
  simp [settleTerm, Term.mapM, Term.walk, Term.render, Term.fragment, Token.render, String.append_assoc,
    -String.reduceAppend]

theorem Visits.exists_spelled {r r' : Registry} {l : List (Slot × String)} (h : Visits Slot.settle r l r')
    (hstem : r.PlainStem) (hl : ∀ p ∈ l, p.1.Takes Filter.Named) : ∀ p ∈ l, ∃ g, Spelled p g := by
  intro p hp
  obtain ⟨r₁, r₂, halike, hrun⟩ := h.alike.2 p hp
  exact Slot.exists_spelled (halike.plainStem hstem) (hl p hp) hrun

/-- A list in front of one more item. -/
theorem intercalate_concat {l : List String} (h : l ≠ []) (separator item : String) :
    separator.intercalate (l ++ [item]) = separator.intercalate [separator.intercalate l, item] := by
  induction l with
  | nil => exact absurd rfl h
  | cons x l ih =>
    cases l with
    | nil => simp
    | cons y l =>
      have := ih (by simp)
      simp_all [String.append_assoc]

namespace Source

variable {s : Source}

/-- A source that counts no groups settles to its columns, and registers nothing. -/
theorem settleTerm_plain (hs : s.groupJoin = none) (sc : Scope) {m : Mode} (hm : m.memberRoot = false) (beside : Bool) :
    settleTerm (s.emit sc m beside).term = pure (", ".intercalate
      (if s.columnItems sc = [] then [quoteName (sc.tableName s.table) ++ ".*"] else s.columnItems sc)) := by
  obtain ⟨typeName, members, own, groupJoin⟩ := s
  obtain rfl : groupJoin = none := hs
  have hemit : (Source.emit ⟨typeName, members, own, none⟩ sc m beside).term =
      sourceTerm (sc.tableName own) (sc.sourceColumns own members) := by
    simp only [Source.emit, hm]
    rfl
  rw [hemit, sourceTerm]
  by_cases hitems : columnItems ⟨typeName, members, own, none⟩ sc = []
  · have hcolumns : sc.sourceColumns own members = [] := List.map_eq_nil_iff.1 hitems
    rw [if_pos hitems, if_pos (by rw [hcolumns]; rfl), settleTerm_allColumns, String.intercalate_singleton]
  · have hcolumns : sc.sourceColumns own members ≠ [] := fun h => hitems (List.map_eq_nil_iff.2 h)
    rw [if_neg hitems, if_neg (by simpa using hcolumns)]
    refine settleTerm_list_of_forall fun c _ => ?_
    rw [settleTerm_ownColumn]
    simp [columnItem]

/-- One that counts groups settles to its columns, and behind them to the number of
rows, the inner key in front of the outer one. -/
theorem settleTerm_counted {g : GroupJoin} (hs : s.groupJoin = some g) (sc : Scope) (m : Mode) (beside : Bool) :
    settleTerm (s.emit sc m beside).term = do
      let inner ← settleTerm (g.inner.emit (s.copyScope sc) {} beside).term
      let outer ← settleTerm (g.outer.emit sc {} (g.inner.isJsonText beside)).term
      return ", ".intercalate [", ".intercalate (s.columnItems sc), s.countItem sc inner outer] := by
  have hcolumns : settleTerm (.list ((sc.sourceColumns s.table s.members).map fun c =>
      .labelled (.column (.table (sc.tableName s.table)) c.2 []) (s.typeName ++ "." ++ c.1))) =
      pure (", ".intercalate (s.columnItems sc)) := by
    refine settleTerm_list_of_forall fun c _ => ?_
    rw [settleTerm_labelled, settleTerm_ownColumn, pure_bind, columnItem, hs]
    simp [String.append_assoc]
  rw [Source.term_emit_group hs, groupJoinTerm, settleTerm_list, List.mapM_cons, List.mapM_cons, List.mapM_nil,
    hcolumns, settleTerm_labelled, settleTerm_groupCount]
  simp only [pure_bind, bind_assoc]
  rfl

/-- The columns of a source in tokens. -/
theorem exists_columnFragments (sc : Scope) (spell : Slot × String → Fragment String) (h : s.columnItems sc ≠ []) :
    ∃ fs : List (Fragment (Slot × String)), fs ≠ [] ∧ (∀ f ∈ fs, IsItem spell f) ∧
      (fs.map fun f => Fragment.render (f.map (Token.map Prod.snd))) = s.columnItems sc := by
  refine ⟨(sc.sourceColumns s.table s.members).map (s.columnFragment sc), ?_, ?_, ?_⟩
  · exact fun hnil => h (List.map_eq_nil_iff.2 (List.map_eq_nil_iff.1 hnil))
  · intro f hf
    obtain ⟨column, -, rfl⟩ := List.mem_map.1 hf
    exact s.columnFragment_isItem sc column spell
  · simp [map_columnFragment, render_columnFragment, columnItems]

/-- The list of a source that counts no groups is cut into its items. -/
theorem listItems_plain (s : Source) (sc : Scope) :
    listItems (", ".intercalate
        (if s.columnItems sc = [] then [quoteName (sc.tableName s.table) ++ ".*"] else s.columnItems sc)) =
      some (if s.columnItems sc = [] then [quoteName (sc.tableName s.table) ++ ".*"] else s.columnItems sc) := by
  split
  · have hname : Uncut 0 0 [Lexeme.quoted '"' (sc.tableName s.table)] := rfl
    have hall : Uncut 0 0 (textLexemes ".*") := by decide
    have hitem : IsItem (fun _ => []) [Token.name (sc.tableName s.table), Token.text ".*"] :=
      ⟨(Fragment.Legible.name _).close (by decide), by simp [Token.slots],
        by simpa [Token.lexemes] using hname.append hall⟩
    have hlist := listItems_intercalate (List.cons_ne_nil _ []) (by simpa using hitem)
    have htext : Fragment.render [Token.name (sc.tableName s.table), Token.text ".*"] =
      quoteName (sc.tableName s.table) ++ ".*" := by simp [Token.render]
    simpa only [List.map_cons, List.map_nil, Token.map, htext] using hlist
  · rename_i hitems
    obtain ⟨fs, hne, hfs, htexts⟩ := exists_columnFragments sc (fun _ => []) hitems
    simpa only [htexts] using listItems_intercalate hne hfs

/-- The names of a source are those of its keys. -/
theorem filterNames_group {g : GroupJoin} (hs : s.groupJoin = some g) :
    (Expr.source s).filterNames = g.outer.filterNames ++ g.inner.filterNames := by
  have hown : (Expr.source s).ownFilterNames = [] := rfl
  rw [Expr.filterNames, Expr.subterms, Source.subterms_eq, hs, List.flatMap_cons, hown]
  simp [Expr.filterNames]

/-- That of one that counts groups, too, once the keys have their texts. -/
theorem listItems_counted {g : GroupJoin} (hs : s.groupJoin = some g) (sc : Scope) (beside : Bool)
    {inner outer : String}
    {r r₁ r' : Registry} (hstem : r.PlainStem) (hnames : ∀ n ∈ (Expr.source s).filterNames, IsIdentifier n)
    (hinner : (settleTerm (g.inner.emit (s.copyScope sc) {} beside).term).runOn r = (.ok inner, r₁))
    (houter : (settleTerm (g.outer.emit sc {} (g.inner.isJsonText beside)).term).runOn r₁ = (.ok outer, r')) :
    listItems (", ".intercalate [", ".intercalate (s.columnItems sc), s.countItem sc inner outer]) =
      some ((if s.columnItems sc = [] then [""] else s.columnItems sc) ++ [s.countItem sc inner outer]) := by
  obtain ⟨v, hv, hvisits, rfl⟩ := settleTerm_eq_ok hinner
  obtain ⟨w, hw, hvisits', rfl⟩ := settleTerm_eq_ok houter
  rw [filterNames_group hs] at hnames
  have hbuilt := Expr.built_of_names (fun n hn => hnames n (by simp [hn])) hv
  have hbuilt' := Expr.built_of_names (fun n hn => hnames n (by simp [hn])) hw
  have hspelled : ∀ p ∈ v.fragment.slots ++ w.fragment.slots, ∃ g, Spelled p g := by
    intro p hp
    rcases List.mem_append.1 hp with hp | hp
    · exact hvisits.exists_spelled hstem (fun p hp => hbuilt.of_mem_slots hp) p (hbuilt.slots_subset hp)
    · exact hvisits'.exists_spelled (hvisits.alike.1.plainStem hstem) (fun p hp => hbuilt'.of_mem_slots hp) p
        (hbuilt'.slots_subset hp)
  choose! spell hspell using hspelled
  have hcount := s.countFragment_isItem sc ⟨hbuilt.legible, hbuilt.level⟩ ⟨hbuilt'.legible, hbuilt'.level⟩ hspell
  have htext : Fragment.render ((s.countFragment sc v.fragment w.fragment).map (Token.map Prod.snd)) =
      s.countItem sc (v.map Prod.snd).render (w.map Prod.snd).render := by
    rw [map_countFragment, render_countFragment, ← Term.fragment_map, ← Term.fragment_map]
    rfl
  split
  · rename_i hitems
    have hempty : IsItem spell [] := ⟨.nil, by simp, rfl⟩
    have hlist := listItems_intercalate (l := [[], s.countFragment sc v.fragment w.fragment]) (by simp)
      (by simpa using ⟨hempty, hcount⟩)
    rw [hitems]
    simpa only [List.map_cons, List.map_nil, htext, Fragment.render_nil, String.intercalate_nil, List.cons_append,
      List.nil_append] using hlist
  · rename_i hitems
    obtain ⟨fs, -, hfs, htexts⟩ := exists_columnFragments sc spell hitems
    have hlist := listItems_intercalate (l := fs ++ [s.countFragment sc v.fragment w.fragment]) (by simp) fun f hf => by
      rcases List.mem_append.1 hf with hf | hf
      · exact hfs f hf
      · exact List.mem_singleton.1 hf ▸ hcount
    rw [List.map_append, htexts, List.map_singleton, htext, intercalate_concat hitems] at hlist
    exact hlist

/-- There are no columns to expand to: no members are named, and the columns of the
table are not known or there are none. -/
theorem columnItems_eq_nil_iff (s : Source) (sc : Scope) :
    s.columnItems sc = [] ↔ s.members = [] ∧ (sc.isForeign s.table ∨ sc.table.columns.toList = []) := by
  rw [columnItems, List.map_eq_nil_iff, Scope.sourceColumns]
  by_cases hmembers : s.members = []
  · by_cases hforeign : sc.isForeign s.table <;> simp [hmembers, hforeign]
  · simp [hmembers]

theorem columnItem_ne_empty (s : Source) (sc : Scope) (column : String × String) : s.columnItem sc column ≠ "" := by
  simp [columnItem, quoteName, enclose]

theorem countItem_ne_empty (s : Source) (sc : Scope) (inner outer : String) : s.countItem sc inner outer ≠ "" := by
  have hlabel : quoteName (s.typeName ++ ".__GROUP_COUNT") ≠ "" := by simp [quoteName, enclose]
  unfold countItem
  exact fun h => hlabel (String.append_eq_empty_iff.1 h).2

end Source

/-! ## Select lists -/

/-- What a query selects is a source. -/
def Query.Selects (q : Query) (s : Source) : Prop :=
  q.count = false ∧ (q.selector = some (.source s) ∨ q.selector = none ∧ q.source = s)

theorem Query.Selects.emitItems {q : Query} {s : Source} (h : q.Selects s) (sc : Scope) :
    q.emitItems sc = (s.emit sc {} false).term := by
  obtain ⟨hcount, hselector | ⟨hselector, rfl⟩⟩ := h <;> simp [Query.emitItems, hcount, hselector, Expr.emit]

theorem Sql.Frame.exists_render (f : Frame String) :
    ∃ rest, f.render = "SELECT " ++ (if f.distinct then "DISTINCT " else "") ++ f.select.render ++
      " FROM " ++ rest := by
  have hdistinct : Fragment.render (if f.distinct then [Token.text "DISTINCT "] else []) =
      if f.distinct then "DISTINCT " else "" := by split <;> simp [Token.render]
  obtain ⟨tail, htail⟩ : ∃ tail, f.statement =
      Token.text "SELECT " :: (if f.distinct then [Token.text "DISTINCT "] else []) ++ f.select ++
        Token.text " FROM " :: tail := by
    constructor
    simp only [Frame.statement, List.append_assoc, List.cons_append]
    rfl
  refine ⟨Fragment.render tail, ?_⟩
  simp only [Frame.render, htail, List.append_assoc, List.cons_append, Fragment.render_cons, Fragment.render_append,
    Token.render, hdistinct]
  simp only [String.append_assoc, -String.reduceAppend]

/-- The select list of a statement is settled first, and written behind `SELECT`. -/
theorem settleSelect_items {t : Select Slot} {frame : Frame String} {r r' : Registry}
    (h : (settleSelect t).runOn r = (.ok frame, r')) :
    ∃ r₁ rest, (settleTerm t.items).runOn r = (.ok frame.select.render, r₁) ∧
      frame.render = "SELECT " ++ (if t.distinct then "DISTINCT " else "") ++ frame.select.render ++
        " FROM " ++ rest := by
  obtain ⟨distinct, items, schema, table, joins, conditions, groupBy, orderBy, limit, offset⟩ := t
  obtain ⟨t', r₁, ht, h⟩ := Naming.runOn_bind_ok h
  cases h
  obtain ⟨items', r₁, hitems, ht⟩ := Naming.runOn_bind_ok ht
  obtain ⟨joins', r₂, -, ht⟩ := Naming.runOn_bind_ok ht
  obtain ⟨conditions', r₃, -, ht⟩ := Naming.runOn_bind_ok ht
  obtain ⟨groupBy', r₄, -, ht⟩ := Naming.runOn_bind_ok ht
  obtain ⟨orderBy', r₅, -, ht⟩ := Naming.runOn_bind_ok ht
  cases ht
  obtain ⟨rest, hrest⟩ := Frame.exists_render (Select.frame
    ⟨distinct, items', schema, table, joins', conditions', groupBy',
    orderBy', limit, offset⟩)
  exact ⟨r₁, rest, settleTerm_of_run hitems, hrest⟩

/-- **Select lists are cut into their items.** A source that counts no groups always
has a list, of an item for each of its columns or of the one item for all of them. The
list of one that counts groups has an item for each of its columns and one behind them
for the number of rows, in which the texts of the keys stand; it has an empty item if,
and only if, there are no columns to expand to. What a query selects is such a list, as
it stands between `SELECT` and `FROM`. -/
theorem select_list_items (s : Source) :
    (s.groupJoin = none → ∀ (sc : Scope) (m : Mode) (beside : Bool) (r : Registry), m.memberRoot = false →
      ∃ text items, (settleTerm (s.emit sc m beside).term).runOn r = (.ok text, r) ∧ listItems text = some items ∧
        items = (if s.columnItems sc = [] then [quoteName (sc.tableName s.table) ++ ".*"] else s.columnItems sc) ∧
        ∀ item ∈ items, item ≠ "") ∧
    (∀ g, s.groupJoin = some g → (∀ n ∈ (Expr.source s).filterNames, IsIdentifier n) →
      ∀ (sc : Scope) (m : Mode) (beside : Bool) (r r' : Registry) (text : String), r.PlainStem →
      (settleTerm (s.emit sc m beside).term).runOn r = (.ok text, r') →
      ∃ inner outer r₁ items,
        (settleTerm (g.inner.emit (s.copyScope sc) {} beside).term).runOn r = (.ok inner, r₁) ∧
        (settleTerm (g.outer.emit sc {} (g.inner.isJsonText beside)).term).runOn r₁ = (.ok outer, r') ∧
        listItems text = some items ∧
        items = (if s.columnItems sc = [] then [""] else s.columnItems sc) ++ [s.countItem sc inner outer] ∧
        ((∀ item ∈ items, item ≠ "") ↔
          ¬(s.members = [] ∧ (sc.isForeign s.table ∨ sc.table.columns.toList = [])))) ∧
    ∀ q : Query, q.Selects s → ∀ (sc : Scope) (r r' : Registry) (frame : Frame String),
      (settleSelect (q.emit sc)).runOn r = (.ok frame, r') →
      ∃ r₁ rest, (settleTerm (s.emit (q.scope sc) {} false).term).runOn r = (.ok frame.select.render, r₁) ∧
        frame.render =
          "SELECT " ++ (if q.distinct then "DISTINCT " else "") ++ frame.select.render ++ " FROM " ++ rest := by
  have hcolumns : ∀ sc, ∀ item ∈ s.columnItems sc, item ≠ "" := by
    intro sc item hitem
    obtain ⟨column, -, rfl⟩ := List.mem_map.1 hitem
    exact s.columnItem_ne_empty sc column
  refine ⟨fun hs sc m beside r hm => ?_, fun g hs hnames sc m beside r r' text hstem hrun => ?_,
    fun q hq sc r r' frame hrun => ?_⟩
  · refine ⟨_, _, by rw [Source.settleTerm_plain hs sc hm beside, Naming.runOn_pure], s.listItems_plain sc, rfl, ?_⟩
    split
    · simp
    · exact hcolumns sc
  · rw [Source.settleTerm_counted hs] at hrun
    obtain ⟨inner, r₁, hinner, hrun⟩ := Naming.runOn_bind_ok hrun
    obtain ⟨outer, r₂, houter, hrun⟩ := Naming.runOn_bind_ok hrun
    cases hrun
    refine ⟨inner, outer, r₁, _, hinner, houter, Source.listItems_counted hs sc beside hstem hnames hinner houter,
      rfl, ?_⟩
    have hcount := s.countItem_ne_empty sc inner outer
    rw [← s.columnItems_eq_nil_iff sc]
    by_cases hitems : s.columnItems sc = []
    · simp [hitems]
    · refine iff_of_true (fun item hitem => ?_) hitems
      rw [if_neg hitems] at hitem
      rcases List.mem_append.1 hitem with hitem | hitem
      · exact hcolumns sc item hitem
      · exact List.mem_singleton.1 hitem ▸ hcount
  · rw [Query.emit_eq, hq.emitItems] at hrun
    exact settleSelect_items hrun

/-- The rows of groups, with a comma in the name of a column and commas in a key. -/
def crowdedGroup : Source :=
  ⟨"T", ["a, b", "c"], none, some ⟨.member none ["k"] .text,
    .call .replace (some (.member none ["k"] .text)) [.constant (.string "x"), .constant (.string "y")]⟩⟩

theorem crowdedGroup_items :
    ∃ text r', (settleTerm (crowdedGroup.emit (.ofSettings plainTable {} none) {} false).term).runOn (.ofSettings {}) =
        (.ok text, r') ∧
      listItems text = some ["\"t\".\"a, b\" AS \"T.a, b\"", "\"t\".\"c\" AS \"T.c\"",
        "(SELECT COUNT(*) FROM \"t\" AS \"temp_t\" WHERE REPLACE(\"temp_t\".\"k\", @p0, @p1) = \"t\".\"k\")" ++
          " AS \"T.__GROUP_COUNT\""] := by
  obtain ⟨text, r', hrun⟩ : ∃ text r',
      (settleTerm (crowdedGroup.emit (.ofSettings plainTable {} none) {} false).term).runOn
    (.ofSettings {}) = (.ok text, r') := ⟨_, _, rfl⟩
  refine ⟨text, r', hrun, ?_⟩
  obtain ⟨inner, outer, r₁, items, hinner, houter, hitems, rfl, -⟩ :=
    (select_list_items crowdedGroup).2.1 _ rfl (by decide)
    (.ofSettings plainTable {} none) {} false (.ofSettings {}) r' text (fun _ => (by decide : IsIdentifier "p").2) hrun
  cases hinner
  cases houter
  rw [hitems]
  decide +kernel

/-- The rows of groups of a table without columns. -/
def uncountedColumns : Query :=
  { source := ⟨"", [], none, none⟩,
    selector := some (.source ⟨"T", [], none, some ⟨.member none ["a"] .unknown, .member none ["a"] .unknown⟩⟩),
    joins := [], conditions := [], filters := [], groupBy := [], orderBy := [], limit := none, offset := none,
    distinct := false, count := false }

/-- Groups with a key whose parameter closes the parentheses around it. -/
def unclosedKey : Source :=
  ⟨"T", ["a"], none, some ⟨.member none ["a"] .unknown,
    .subquery (countWhere [] [.compare "a" .equal ⟨"x)), ((y", .int 1⟩])⟩⟩

/-- There is nothing in front of the comma; and a parameter that is no identifier cuts
the number of rows in two. -/
theorem uncountedColumns_list :
    (uncountedColumns.compile plainTable {}).toOption.map (·.text) =
      some ("SELECT " ++ ", (SELECT COUNT(*) FROM \"t\" AS \"temp_t\" WHERE \"temp_t\".\"a\" = \"t\".\"a\")" ++
        " AS \"T.__GROUP_COUNT\"" ++ " FROM \"t\"") ∧
    listItems (", (SELECT COUNT(*) FROM \"t\" AS \"temp_t\" WHERE \"temp_t\".\"a\" = \"t\".\"a\")" ++
        " AS \"T.__GROUP_COUNT\"") =
      some ["", "(SELECT COUNT(*) FROM \"t\" AS \"temp_t\" WHERE \"temp_t\".\"a\" = \"t\".\"a\")" ++
        " AS \"T.__GROUP_COUNT\""] ∧
    ((settleTerm (unclosedKey.emit (.ofSettings plainTable {} none) {} false).term).runOn
        (.ofSettings {})).1.toOption.bind listItems =
      some ["\"t\".\"a\" AS \"T.a\"", "(SELECT COUNT(*) FROM \"t\" AS \"temp_t\" WHERE (SELECT COUNT(*) FROM \"t\"" ++
        " WHERE \"t\".\"a\" = @x))", "((y) = \"t\".\"a\") AS \"T.__GROUP_COUNT\""] :=
  ⟨by decide +kernel, by decide +kernel, by decide +kernel⟩

end ParamQuery
