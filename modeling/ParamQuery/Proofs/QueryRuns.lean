/-
Runs over the statement of a whole query. `Query.Nameable` is what makes the
parameters of a compiled query readable: the names of the filters inside it are
identifiers, apart from each other and from the names that are made for values.
From it follow what a run in each style leaves (`Query.Nameable.named_run`,
`Query.Nameable.positional_run`) and how its text is read back
(`lex_statement`).
-/
import ParamQuery.Proofs.Repeats
import Mathlib

namespace ParamQuery

open Sql

/-! ## Names of filters -/

/-- The names of the filters in a query and in the queries inside it. -/
def Query.filterNames (q : Query) : List String := (Expr.subquery q).filterNames

/-- The names of the filters that are written more than once. -/
def Query.repeatedNames (q : Query) : List String := (Expr.subquery q).repeatedNames

/-- The names of the filters can be told apart, from each other and from those
that are made with the stem. -/
structure Query.Nameable (q : Query) (stem : String) : Prop where
  made : IsIdentifier stem
  identifier : ∀ n ∈ q.filterNames, IsIdentifier n
  nodup : q.filterNames.Nodup
  reserved : ∀ n ∈ q.filterNames, ∀ k : Nat, n ≠ stem ++ toString k

/-- No name in the SQL of a filter holds the sign of a parameter. -/
structure Query.SignFree (q : Query) (table : Table) : Prop where
  tableName : '@' ∉ table.name.toList
  columns : ∀ c ∈ table.columns.toList, '@' ∉ c.dbName.toList
  sources : ∀ p, Expr.subquery p ∈ (Expr.subquery q).subterms → ∀ t ∈ p.source.table, '@' ∉ t.toList
  paths : ∀ p, Expr.subquery p ∈ (Expr.subquery q).subterms → ∀ f ∈ p.filters, ∀ path ∈ f.paths, '@' ∉ path.toList

/-- The names of the filters can be found in their texts: none of them begins
another one, and nothing else there looks like a parameter. -/
structure Query.Findable (q : Query) (table : Table) : Prop extends q.SignFree table where
  apart : ∀ m ∈ q.filterNames, ∀ n ∈ q.filterNames, m ≠ n → ¬m.toList <+: n.toList

/-- A filter of the query `p`, which is `q` or stands in it. -/
def Query.HasFilter (q p : Query) (f : Filter) : Prop := Expr.subquery p ∈ (Expr.subquery q).subterms ∧ f ∈ p.filters

section Filters

variable {q : Query} {table : Table} {stem : String}

theorem mem_filterNames {p : Query} (hp : Expr.subquery p ∈ (Expr.subquery q).subterms) {f : Filter}
    (hf : f ∈ p.filters) {n : String} (hn : n ∈ f.names) : n ∈ q.filterNames :=
  List.mem_flatMap.2 ⟨_, hp, List.mem_flatMap.2 ⟨f, hf, hn⟩⟩

/-- Filters whose names are apart are readable. -/
theorem Query.readable_of_nodup (hid : ∀ n ∈ q.filterNames, IsIdentifier n) (hnodup : q.filterNames.Nodup) {p : Query}
    (hp : Expr.subquery p ∈ (Expr.subquery q).subterms) {f : Filter} (hf : f ∈ p.filters) : f.Readable := by
  refine ⟨?_, fun n hn => hid n (mem_filterNames hp hf hn)⟩
  have hown : (p.filters.flatMap Filter.names).Nodup := (List.nodup_flatMap.1 hnodup).1 _ hp
  exact (List.nodup_flatMap.1 hown).1 f hf

theorem Query.Nameable.readable (h : q.Nameable stem) {p : Query}
    (hp : Expr.subquery p ∈ (Expr.subquery q).subterms) {f : Filter} (hf : f ∈ p.filters) : f.Readable :=
  Query.readable_of_nodup h.identifier h.nodup hp hf

theorem Query.Nameable.filtersReadable (h : q.Nameable stem) :
    ∀ x ∈ (Expr.subquery q).subterms, x.FiltersReadable := by
  intro x hx
  cases x with
  | subquery p => exact fun f hf => h.readable hx hf
  | source s | binary op left right | conditional test ifTrue ifFalse | constant value | member root path type
  | call method receiver arguments | project items | unary op operand => trivial

/-- Readable filters whose names can be found are separable. -/
theorem Query.Findable.separable (hfind : q.Findable table) {p : Query}
    (hp : Expr.subquery p ∈ (Expr.subquery q).subterms) {f : Filter} (hf : f ∈ p.filters) (hread : f.Readable) :
    f.Separable table (some (p.tableName table)) := by
  refine { toReadable := hread, apart := fun m hm n hn hne => ?_, lacks := ?_ }
  · have hm := mem_filterNames hp hf hm
    have hn := mem_filterNames hp hf hn
    exact ⟨hfind.apart m hm n hn hne, hfind.apart n hn m hm (Ne.symm hne)⟩
  · refine f.shape_lacks table _ (fun t ht => ?_) hfind.columns (hfind.paths p hp f hf)
    cases Option.mem_some_iff.1 ht
    unfold Query.tableName
    cases hs : p.source.table with
    | none => exact hfind.tableName
    | some s => exact hfind.sources p hp s hs

theorem Query.Nameable.separable (h : q.Nameable stem) (hfind : q.Findable table) {p : Query}
    (hp : Expr.subquery p ∈ (Expr.subquery q).subterms) {f : Filter} (hf : f ∈ p.filters) :
    f.Separable table (some (p.tableName table)) :=
  hfind.separable hp hf (h.readable hp hf)

/-- The entries of the filters inside an expression. -/
def Expr.filterEntries (table : Table) (e : Expr) : List Entry :=
  e.subterms.flatMap fun x => match x with
    | .subquery p => p.filters.flatMap (Filter.bindings table (some (p.tableName table)))
    | _ => []

theorem Expr.filterEntries_names (table : Table) (e : Expr) : (e.filterEntries table).map (·.1) = e.filterNames := by
  rw [Expr.filterEntries, Expr.filterNames, List.map_flatMap]
  refine List.flatMap_congr fun x _ => ?_
  cases x with
  | subquery p =>
    rw [List.map_flatMap, Expr.ownFilterNames]
    exact List.flatMap_congr fun f _ => f.bindings_names _ _
  | source s | binary op left right | conditional test ifTrue ifFalse | constant value | member root path type
  | call method receiver arguments | project items | unary op operand => rfl

theorem mem_filterNames_of_entry {e : Entry} (he : e ∈ (Expr.subquery q).filterEntries table) :
    e.1 ∈ q.filterNames := by
  rw [Query.filterNames, ← Expr.filterEntries_names table]
  exact List.mem_map.2 ⟨e, he, rfl⟩

theorem Query.Nameable.dictionary (h : q.Nameable stem) :
    Dictionary stem ((Expr.subquery q).filterEntries table) where
  functional d hd e he hname := by
    have hnodup : (((Expr.subquery q).filterEntries table).map (·.1)).Nodup := by
      rw [Expr.filterEntries_names]
      exact h.nodup
    exact List.inj_on_of_nodup_map hnodup hd he hname
  reserved e he := h.reserved e.1 (mem_filterNames_of_entry he)

/-- A filter whose entries are known. -/
def Filter.Listed (dictionary : List Entry) (f : Filter) (table : Table) (qualifier : Option String) : Prop :=
  f.Readable ∧ f.bindings table qualifier ⊆ dictionary

theorem Query.Nameable.listed (h : q.Nameable stem) {p : Query}
    (hp : Expr.subquery p ∈ (Expr.subquery q).subterms) {f : Filter} (hf : f ∈ p.filters) :
    f.Listed ((Expr.subquery q).filterEntries table) table (some (p.tableName table)) :=
  ⟨h.readable hp hf, fun _ he => List.mem_flatMap.2 ⟨_, hp, List.mem_flatMap.2 ⟨f, hf, he⟩⟩⟩

/-- What an expression asks of its parts holds if it is known of every call and
every filter in it. -/
theorem Expr.fits_of_filters {ok : Method → Nat → Nat → Prop} {P : Filter → Table → Option String → Prop} {e : Expr}
    (hcalls : ∀ method receiver arguments, Expr.call method receiver arguments ∈ e.subterms →
      ok method arguments.length (callArity method receiver arguments))
    (hP : ∀ {p}, Expr.subquery p ∈ e.subterms → ∀ {f}, f ∈ p.filters → P f table (some (p.tableName table))) :
    ∀ x ∈ e.subterms, x.Fits ok (Slot.Takes P) table := by
  intro x hx
  cases x with
  | call method receiver arguments => exact hcalls method receiver arguments hx
  | subquery p => exact fun f hf => ⟨f, table, some (p.tableName table), rfl, hP hx hf⟩
  | source s | binary op left right | conditional test ifTrue ifFalse | constant value | member root path type
  | project items | unary op operand => trivial

/-- The statement of a query, filled by a run, is built with filters of which
`P` is known, if it is known of every filter in the query. -/
theorem Query.built_of_map {ok : Method → Nat → Nat → Prop} {P : Filter → Table → Option String → Prop} {sc : Scope}
    (hcalls : ∀ method receiver arguments, Expr.call method receiver arguments ∈ (Expr.subquery q).subterms →
      ok method arguments.length (callArity method receiver arguments))
    (hP : ∀ {p}, Expr.subquery p ∈ (Expr.subquery q).subterms → ∀ {f}, f ∈ p.filters →
      P f sc.table (some (p.tableName sc.table)))
    {α : Type} {g : α → Slot} {u : Select α} (hu : u.map g = q.emit sc) :
    (Term.subquery u).Built ok fun a => (g a).Takes P := by
  refine Term.Built.of_map (S := Slot.Takes P) ?_
  rw [Term.map_subquery, hu]
  exact Expr.emit_built (fun _ _ => trivial) (fun _ => trivial) (.subquery q) (Expr.fits_of_filters hcalls hP) sc {}
    false rfl

/-- The same when nothing is asked of the calls. -/
theorem Query.built_of_filters {P : Filter → Table → Option String → Prop} {sc : Scope}
    (hP : ∀ {p}, Expr.subquery p ∈ (Expr.subquery q).subterms → ∀ {f}, f ∈ p.filters →
      P f sc.table (some (p.tableName sc.table)))
    {α : Type} {g : α → Slot} {u : Select α} (hu : u.map g = q.emit sc) :
    (Term.subquery u).Built (fun _ _ _ => True) fun a => (g a).Takes P :=
  Query.built_of_map (fun _ _ _ _ => trivial) hP hu

end Filters

/-! ## Runs -/

theorem Registry.named_ofSettings {settings : Settings} (h : settings.style = .named) (dictionary : List Entry) :
    (Registry.ofSettings settings).Named settings.stem dictionary :=
  ⟨h, rfl, List.nodup_nil, fun _ he => by cases he⟩

theorem Registry.positional_ofSettings {settings : Settings} (h : settings.style = .positional) :
    (Registry.ofSettings settings).Positional :=
  ⟨h, rfl⟩

/-- A slot that was settled is accepted. -/
theorem Visits.accepted {r r' : Registry} {l : List (Slot × String)} (h : Visits Slot.settle r l r') :
    ∀ p ∈ l, p.1.isAccepted := by
  induction h with
  | nil => simp
  | @cons slot text l r r₁ r₂ hb _ ih =>
    intro p hp
    rcases List.mem_cons.1 hp with rfl | hp
    · cases slot with
      | reject e =>
        rw [Slot.settle_reject] at hb
        cases hb
      | value v asText | filter c => rfl
    · exact ih p hp

section Runs

variable {q : Query} {table : Table} {settings : Settings} {u : Select (Slot × String)} {r : Registry}

/-- What a run in named style leaves: the entries that it writes, and a name is
written once unless it is one of those that are repeated. -/
theorem Query.Nameable.named_run (h : q.Nameable settings.stem) (hstyle : settings.style = .named)
    (hu : u.map Prod.fst = q.emit (.ofSettings table settings none))
    (hv : Visits Slot.settle (.ofSettings settings) u.slots r) :
    r.parameters.names.Nodup ∧ ∃ gs, Transcript .named r.parameters.toList u.slots gs ∧
      r.parameters.toList = appendNew [] (gs.flatMap Fragment.slots) ∧
      ∀ n ∉ q.repeatedNames, (writtenNames gs).count n ≤ 1 := by
  have hbuilt := Query.built_of_filters (P := Filter.Listed ((Expr.subquery q).filterEntries table)) h.listed hu
  obtain ⟨hnamed, gs, htranscript, hlist, hmade, hfilters⟩ := hv.named h.dictionary h.made
    (Registry.named_ofSettings hstyle _) fun p hp => hbuilt.of_mem_slots hp
  refine ⟨hnamed.nodup, gs, htranscript, hlist, fun n hn => ?_⟩
  by_cases hmake : ∃ k : Nat, n = settings.stem ++ toString k
  · obtain ⟨k, rfl⟩ := hmake
    exact (hmade k).1
  · -- the name of a filter, which the query has only once
    have hweight : (u.slots.flatMap fun p => p.1.filterNames).count n =
        weight n (q.emit (.ofSettings table settings none)).slots := by
      rw [← hu, Select.slots_map, weight, List.flatMap_map]
    rw [hfilters n fun k hk => hmake ⟨k, hk⟩, hweight]
    exact le_trans (Query.weight_slots_le h.filtersReadable hn _) (List.nodup_iff_count_le_one.1 h.nodup n)

/-- What a run in positional style leaves: the entries that it writes, by their
numbers. -/
theorem Query.Nameable.positional_run {stem : String} (h : q.Nameable stem) (hfind : q.Findable table)
    (hstyle : settings.style = .positional) (hu : u.map Prod.fst = q.emit (.ofSettings table settings none))
    (hv : Visits Slot.settle (.ofSettings settings) u.slots r) :
    r.Positional ∧ ∃ gs, Transcript .positional r.parameters.toList u.slots gs ∧
      r.parameters.toList = gs.flatMap Fragment.slots := by
  have hbuilt := Query.built_of_filters (P := Filter.Separable) (h.separable hfind) hu
  exact hv.positional (Registry.positional_ofSettings hstyle) fun p hp => hbuilt.of_mem_slots hp

/-- Every parameter of a text is bound. -/
def Bound (sigil : Char) (ps : Parameters) (l : List Lexeme) : Prop :=
  ∀ m ∈ markers l, m.sigil = sigil ∧ ∃ b, ps.get? m.name = some b

/-- The text of a run, read back: its parameters are those in the texts of the
slots, and the values are those of the slots. -/
structure Reading (style : ParameterStyle) (u : Select (Slot × String)) (ps : Parameters) (l : List Lexeme) : Prop where
  lexed : lex (u.map Prod.snd).frame.render = some l
  markers : markers l = (u.frame.statement.slots.flatMap fun p => namesIn p.2).map style.marker
  bound : Bound style.sigil ps l
  pieces : l.flatMap (Lexeme.place style.sigil ps) = (u.map Prod.fst).frame.statement.pieces Slot.pieces

theorem lex_statement {style : ParameterStyle} {ok : Method → Nat → Nat → Prop} {S : Slot × String → Prop}
    (hbuilt : (Term.subquery u).Built ok S) {ps : Parameters} (hnodup : ps.names.Nodup)
    {gs : List (Fragment Entry)} (htranscript : Transcript style ps.toList u.slots gs) : ∃ l, Reading style u ps l := by
  have hreads : ∀ p ∈ u.frame.statement.slots, ∃ g, Reads style ps.toList p g :=
    fun p hp => htranscript.reading.1 p (Select.slots_subset_of_built hbuilt hp)
  have hlegible := Select.legible_of_built hbuilt
  obtain ⟨l, hlex, hmarkers, hsymbols⟩ := lex_settled hnodup hlegible hreads
  refine ⟨l, ?_, hmarkers, fun m hm => ?_, ?_⟩
  · rw [Frame.render, Select.frame_map, Frame.statement_map]
    exact hlex
  · rw [hmarkers] at hm
    obtain ⟨n, hn, rfl⟩ := List.mem_map.1 hm
    obtain ⟨p, hp, hn⟩ := List.mem_flatMap.1 hn
    obtain ⟨g, hg⟩ := hreads p hp
    rw [hg.namesIn_eq] at hn
    obtain ⟨e, he, rfl⟩ := List.mem_map.1 hn
    exact ⟨rfl, e.2, get?_of_mem hnodup (hg.known e he)⟩
  · rw [flatMap_place, hsymbols, flatMap_symbols hlegible.whole, Select.frame_map, Frame.statement_map,
      Fragment.pieces_map]
    exact Fragment.pieces_congr fun p _ => p.1.flatMap_symbols

end Runs

/-! ## A filter that is written twice -/

/-- Rows counted under a conditional in the true branch of another one, whose
test is a query with a filter. -/
def nestedGuard : Query where
  source := ⟨"", [], none, none⟩
  selector := none
  joins := []
  conditions := [.conditional
    (.subquery ⟨⟨"", [], none, none⟩, none, [], [],
      [.compare "a" .equal ⟨"eq_00000000000000000000000000000000", .int 1⟩], [], [], none, none, false, false⟩)
    (.conditional (.constant (.bool true)) (.constant (.int 1)) (.constant (.int 2)))
    (.constant (.int 3))]
  filters := []
  groupBy := []
  orderBy := []
  limit := none
  offset := none
  distinct := false
  count := true

theorem nestedGuard_filterNames : nestedGuard.filterNames = ["eq_00000000000000000000000000000000"] := by
  decide

/-- A name that begins otherwise than the stem is not made with it. -/
theorem ne_made_of_head {stem name : String} (hstem : IsIdentifier stem)
    (h : name.toList.head? ≠ stem.toList.head?) (k : Nat) : name ≠ stem ++ toString k := by
  rintro rfl
  rw [String.toList_append, List.head?_append_of_ne_nil _ hstem.1] at h
  exact h rfl

set_option maxRecDepth 4000 in
theorem nestedGuard_nameable : nestedGuard.Nameable "p" where
  made := by decide
  identifier := by
    rw [nestedGuard_filterNames]
    decide
  nodup := by
    rw [nestedGuard_filterNames]
    decide
  reserved := by
    rw [nestedGuard_filterNames]
    exact fun n hn => ne_made_of_head (by decide) (by rw [List.mem_singleton.1 hn]; decide)

end ParamQuery
