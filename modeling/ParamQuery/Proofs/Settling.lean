/-
What a slot becomes. An entry is a parameter's name with its binding. `Reads`
says that the text of a slot is a legible fragment whose slots are entries of
the registry, and that these are the values which belong there. Settling a slot
gives such a text and leaves the entries in the registry: in named style a
filter's entries keep their names (`absorb_named`), in positional style they are
numbered on (`absorb_positional`).
-/
import ParamQuery.Proofs.FilterFacts
import ParamQuery.Proofs.NamingFacts
import ParamQuery.Proofs.Pieces
import Mathlib

namespace ParamQuery

open Sql

/-- A parameter's name with its binding. -/
abbrev Entry := String × Binding

/-- The sign in front of a parameter's name. -/
def ParameterStyle.sigil : ParameterStyle → Char
  | .named => '@'
  | .positional => '$'

/-- The token of a parameter. -/
def ParameterStyle.marker (style : ParameterStyle) (name : String) : Marker := ⟨style.sigil, name⟩

theorem Registry.token_eq (r : Registry) (name : String) : r.token name = (r.style.marker name).text := by
  unfold Registry.token ParameterStyle.marker ParameterStyle.sigil Marker.text
  cases r.style <;> simp

/-! ## Names -/

/-- The names that parameters may have: letters, digits and underscores. -/
def IsIdentifier (s : String) : Prop := s.toList ≠ [] ∧ ∀ c ∈ s.toList, Lexer.isIdentifier c

instance (s : String) : Decidable (IsIdentifier s) :=
  decidable_of_iff (s.toList ≠ [] ∧ s.toList.all Lexer.isIdentifier) (by simp [IsIdentifier])

theorem IsIdentifier.marker_valid {name : String} (h : IsIdentifier name) :
    (ParameterStyle.named.marker name).Valid :=
  ⟨.inl rfl, h.1, h.2⟩

theorem IsIdentifier.at_notMem {name : String} (h : IsIdentifier name) : '@' ∉ name.toList :=
  fun hmem => absurd (h.2 '@' hmem) (by decide)

theorem toString_ne_empty (n : Nat) : (toString n).toList ≠ [] := by
  simp [Nat.toDigits_ne_nil]

theorem isDigit_of_mem_toString {n : Nat} {c : Char} (h : c ∈ (toString n).toList) : c.isDigit :=
  Nat.isDigit_of_mem_toDigits (b := 10) (by omega) (by omega) (by simpa using h)

/-- Numbers are the names of positional parameters. -/
theorem toString_marker_valid (n : Nat) : (ParameterStyle.positional.marker (toString n)).Valid :=
  ⟨.inr rfl, toString_ne_empty n, fun _ h => isDigit_of_mem_toString h⟩

/-- A stem with a number behind it is an identifier. -/
theorem IsIdentifier.append_toString {stem : String} (h : IsIdentifier stem) (n : Nat) :
    IsIdentifier (stem ++ toString n) := by
  refine ⟨by simp [h.1], fun c hc => ?_⟩
  rw [String.toList_append, List.mem_append] at hc
  rcases hc with hc | hc
  · exact h.2 c hc
  · have hd := isDigit_of_mem_toString hc
    simp [Lexer.isIdentifier, Char.isAlphanum, hd]

/-! ## Filters as entries -/

namespace Filter

variable (table : Table) (qualifier : Option String)

/-- The SQL of a filter with the names of its parameters in its slots. -/
def shape (f : Filter) : Fragment String :=
  (f.fragment table qualifier).map (Token.map fun s => String.ofList (s.toList.drop 1))

theorem slots_shape (f : Filter) : (f.shape table qualifier).slots = f.names := by
  rw [shape, Fragment.slots_map, slots_fragment, List.map_map]
  simp [Function.comp_def]

theorem shape_legible (f : Filter) : (f.shape table qualifier).Legible := (f.fragment_legible table qualifier).map _

/-- The SQL of a filter has the token of each name in the name's place. -/
theorem fragment_eq_shape (f : Filter) :
    f.fragment table qualifier = (f.shape table qualifier).map (Token.map ("@" ++ ·)) := by
  rw [shape, List.map_map]
  refine (List.map_id _).symm.trans (List.map_congr_left fun t ht => ?_)
  cases t with
  | slot s =>
    have hs : s ∈ (f.fragment table qualifier).slots := Fragment.mem_slots.2 ht
    rw [slots_fragment] at hs
    obtain ⟨n, -, rfl⟩ := List.mem_map.1 hs
    simp [Token.map]
  | text s | name s | key s => rfl

theorem shape_lacks {c : Char} (hq : ∀ t ∈ qualifier, c ∉ t.toList)
    (hcolumns : ∀ k ∈ table.columns.toList, c ∉ k.dbName.toList) (f : Filter)
    (hpaths : ∀ path ∈ f.paths, c ∉ path.toList) : (f.shape table qualifier).Lacks c := by
  intro s hs
  refine f.fragment_lacks table qualifier hq hcolumns hpaths s ?_
  rcases hs with hs | hs
  · obtain ⟨t, ht, heq⟩ := List.mem_map.1 hs
    cases t <;> simp_all [Token.map]
  · obtain ⟨t, ht, heq⟩ := List.mem_map.1 hs
    cases t <;> simp_all [Token.map]

end Filter

theorem Parameters.ofList_of_nodup {bs : List Entry} (h : (bs.map (·.1)).Nodup) :
    (Parameters.ofList bs).toList = bs := by
  have hfold : ∀ (bs : List Entry) (ps : Parameters), (bs.map (·.1)).Nodup →
      (∀ e ∈ bs, e.1 ∉ ps.names) →
      (bs.foldl (fun ps (e : Entry) => ps.insert e.1 e.2) ps).toList = ps.toList ++ bs := by
    intro bs
    induction bs with
    | nil => simp
    | cons e bs ih =>
      intro ps hnodup hfresh
      obtain ⟨he, hrest⟩ := List.nodup_cons.1 hnodup
      have hinsert := Parameters.toList_insert_of_notMem (b := e.2) (hfresh e (by simp))
      rw [List.foldl_cons, ih _ hrest, hinsert, List.append_assoc]
      · rfl
      · intro d hd
        rw [Parameters.names, hinsert, List.map_append, List.mem_append]
        rintro (hmem | hmem)
        · exact hfresh d (by simp [hd]) hmem
        · simp only [List.map_cons, List.map_nil, List.mem_singleton] at hmem
          exact he (List.mem_map.2 ⟨d, hd, hmem⟩)
  simpa [Parameters.ofList, Parameters.empty] using hfold bs .empty h (by simp [Parameters.names, Parameters.empty])

theorem get?_of_mem {ps : Parameters} (h : ps.names.Nodup) {e : Entry} (he : e ∈ ps.toList) :
    ps.get? e.1 = some e.2 := by
  obtain ⟨bs⟩ := ps
  simp only [Parameters.names, Parameters.get?] at h he ⊢
  induction bs with
  | nil => cases he
  | cons d bs ih =>
    simp only [List.map_cons, List.nodup_cons] at h
    rcases List.mem_cons.1 he with rfl | he
    · simp
    · have hne : d.1 ≠ e.1 := fun heq => h.1 (heq ▸ List.mem_map.2 ⟨e, he, rfl⟩)
      simp only [List.find?_cons, beq_eq_false_iff_ne.2 hne]
      exact ih h.2 he

namespace Filter

variable (table : Table) (qualifier : Option String)

/-- What a name is bound to by a filter. -/
def lookup (f : Filter) (name : String) : Binding :=
  ((f.command table qualifier).parameters.get? name).getD ⟨.null, none⟩

/-- The SQL of a filter with entries in its slots, its names changed. -/
def layout (f : Filter) (rename : String → String) : Fragment Entry :=
  (f.shape table qualifier).map (Token.map fun n => (rename n, f.lookup table qualifier n))

theorem layout_legible (f : Filter) (rename : String → String) : (f.layout table qualifier rename).Legible :=
  (f.shape_legible table qualifier).map _

theorem parameters_command {f : Filter} (h : f.names.Nodup) :
    (f.command table qualifier).parameters.toList = f.bindings table qualifier :=
  Parameters.ofList_of_nodup (by rw [bindings_names]; exact h)

theorem names_command {f : Filter} (h : f.names.Nodup) :
    (f.command table qualifier).parameters.names = f.names := by
  rw [Parameters.names, parameters_command _ _ h, bindings_names]

theorem lookup_of_mem {f : Filter} (h : f.names.Nodup) {e : Entry} (he : e ∈ f.bindings table qualifier) :
    f.lookup table qualifier e.1 = e.2 := by
  rw [← parameters_command _ _ h] at he
  rw [lookup, get?_of_mem (by rw [names_command _ _ h]; exact h) he]
  rfl

/-- The entries of a filter, from left to right. -/
theorem slots_layout {f : Filter} (h : f.names.Nodup) (rename : String → String) :
    (f.layout table qualifier rename).slots = (f.bindings table qualifier).map fun e => (rename e.1, e.2) := by
  rw [layout, Fragment.slots_map, slots_shape, ← bindings_names table qualifier, List.map_map]
  refine List.map_congr_left fun e he => ?_
  simp only [Function.comp_apply, lookup_of_mem _ _ h he]

/-- The text of a filter, with its values in it. -/
theorem symbols_command {f : Filter} (h : f.names.Nodup) (hid : ∀ n ∈ f.names, IsIdentifier n)
    (rename : String → String) :
    (f.command table qualifier).symbols '@' =
      some ((f.layout table qualifier rename).symbols fun e => [.value e.2]) := by
  have htext : (f.command table qualifier).text =
      Fragment.render (((f.shape table qualifier).map (Token.map ParameterStyle.named.marker)).map
        (Token.map Marker.text)) := by
    show Fragment.render (f.fragment table qualifier) = _
    rw [fragment_eq_shape, List.map_map]
    congr 1
    refine List.map_congr_left fun t _ => ?_
    cases t <;> simp [Token.map, ParameterStyle.marker, ParameterStyle.sigil, Marker.text]
  have hlegible : Fragment.Legible ((f.shape table qualifier).map (Token.map ParameterStyle.named.marker)) :=
    (f.shape_legible table qualifier).map _
  have hvalid : ∀ m ∈ Fragment.slots ((f.shape table qualifier).map (Token.map ParameterStyle.named.marker)),
      m.Valid := by
    intro m hm
    rw [Fragment.slots_map, slots_shape] at hm
    obtain ⟨n, hn, rfl⟩ := List.mem_map.1 hm
    exact (hid n hn).marker_valid
  rw [Command.symbols, htext, lex_render_of_legible hlegible hvalid, Option.map_some, symbols_of_legible hlegible,
    Fragment.symbols_map, layout, Fragment.symbols_map]
  congr 1
  refine Fragment.symbols_congr fun n hn => ?_
  -- each name is bound, so its token is replaced
  rw [slots_shape, ← bindings_names table qualifier] at hn
  obtain ⟨e, he, rfl⟩ := List.mem_map.1 hn
  have hget : (f.command table qualifier).parameters.get? e.1 = some e.2 :=
    get?_of_mem (by rw [names_command _ _ h]; exact h) (by rw [parameters_command _ _ h]; exact he)
  simp only [ParameterStyle.marker, ParameterStyle.sigil, Lexeme.bound, if_true, hget, lookup_of_mem _ _ h he]

end Filter

/-! ## What a settled slot reads as -/

/-- The value or the condition that a slot stands for. -/
def Slot.symbols : Slot → List Symbol
  | .value v asText => [.value (boundAs v asText)]
  | .filter c => (c.symbols '@').getD []
  | .reject _ => []

/-- The value or the condition that a slot stands for, as it is written. -/
def Slot.pieces : Slot → List Piece
  | .value v asText => [.value (boundAs v asText)]
  | .filter c => (c.pieces '@').getD []
  | .reject _ => []

theorem Slot.flatMap_symbols (slot : Slot) : slot.symbols.flatMap Symbol.pieces = slot.pieces := by
  cases slot with
  | filter c =>
    rw [Slot.symbols, Slot.pieces, Command.pieces_eq]
    cases c.symbols '@' <;> rfl
  | value v asText | reject e => rfl

/-- The text of a slot as a fragment of entries. -/
structure Reads (style : ParameterStyle) (known : List Entry) (p : Slot × String) (g : Fragment Entry) : Prop where
  text : p.2 = Fragment.render (g.map (Token.map fun e => (style.marker e.1).text))
  legible : g.Legible
  valid : ∀ e ∈ g.slots, (style.marker e.1).Valid
  known : ∀ e ∈ g.slots, e ∈ known
  symbols : g.symbols (fun e => [.value e.2]) = p.1.symbols

theorem Reads.pieces {style : ParameterStyle} {known : List Entry} {p : Slot × String} {g : Fragment Entry}
    (h : Reads style known p g) : g.pieces (fun e => [.value e.2]) = p.1.pieces := by
  rw [← Slot.flatMap_symbols, ← h.symbols, flatMap_symbols h.legible.whole]
  rfl

theorem Reads.mono {style : ParameterStyle} {known known' : List Entry} {p : Slot × String} {g : Fragment Entry}
    (h : Reads style known p g) (hsub : known ⊆ known') : Reads style known' p g :=
  { h with known := fun e he => hsub (h.known e he) }

/-- A value that is settled reads as its parameter. -/
theorem reads_value (style : ParameterStyle) (v : Literal) (asText : Bool) {name : String}
    (hvalid : (style.marker name).Valid) {known : List Entry} (hknown : (name, boundAs v asText) ∈ known) :
    Reads style known (.value v asText, (style.marker name).text) [.slot (name, boundAs v asText)] where
  text := by simp [Token.map, Token.render]
  legible := .slot _
  valid := by simpa [Token.slots] using hvalid
  known := by simpa [Token.slots] using hknown
  symbols := by simp [Token.symbols, Slot.symbols]

/-- A filter reads as its entries, whatever their names are changed to. -/
theorem reads_filter (style : ParameterStyle) {f : Filter} {table : Table} {qualifier : Option String}
    (h : f.names.Nodup) (hid : ∀ n ∈ f.names, IsIdentifier n) {rename : String → String} {known : List Entry}
    (hvalid : ∀ n ∈ f.names, (style.marker (rename n)).Valid)
    (hknown : ∀ e ∈ f.bindings table qualifier, (rename e.1, e.2) ∈ known) {text : String}
    (htext : text = Fragment.render ((f.shape table qualifier).map
      (Token.map fun n => (style.marker (rename n)).text))) :
    Reads style known (.filter (f.command table qualifier), text) (f.layout table qualifier rename) where
  text := by
    rw [Filter.layout, List.map_map]
    refine htext.trans (congrArg Fragment.render (List.map_congr_left fun t _ => ?_))
    cases t <;> rfl
  legible := f.layout_legible table qualifier rename
  valid := by
    intro e he
    rw [Filter.slots_layout _ _ h] at he
    obtain ⟨d, hd, rfl⟩ := List.mem_map.1 he
    refine hvalid d.1 ?_
    rw [← Filter.bindings_names table qualifier]
    exact List.mem_map.2 ⟨d, hd, rfl⟩
  known := by
    intro e he
    rw [Filter.slots_layout _ _ h] at he
    obtain ⟨d, hd, rfl⟩ := List.mem_map.1 he
    exact hknown d hd
  symbols := by
    rw [Slot.symbols, Filter.symbols_command table qualifier h hid rename]
    rfl

/-! ## Named style -/

theorem Parameters.setIn_of_mem {bs : List Entry} (h : (bs.map (·.1)).Nodup) {e : Entry} (he : e ∈ bs) :
    Parameters.setIn e.1 e.2 bs = bs := by
  induction bs with
  | nil => cases he
  | cons d bs ih =>
    obtain ⟨n, c⟩ := d
    simp only [List.map_cons, List.nodup_cons] at h
    rcases List.mem_cons.1 he with rfl | he
    · simp [Parameters.setIn]
    · have hne : n ≠ e.1 := fun heq => h.1 (heq ▸ List.mem_map.2 ⟨e, he, rfl⟩)
      simp [Parameters.setIn, hne, ih h.2 he]

/-- A new name keeps the names apart. -/
theorem Parameters.nodup_names_of_append {ps qs : Parameters} {e : Entry} (h : ps.names.Nodup)
    (hfresh : e.1 ∉ ps.names) (hlist : qs.toList = ps.toList ++ [e]) : qs.names.Nodup := by
  rw [Parameters.names, hlist, List.map_append, List.nodup_append]
  refine ⟨h, by simp, fun a ha b hb => ?_⟩
  rw [List.map_cons, List.map_nil, List.mem_singleton] at hb
  exact fun hab => hfresh (hb ▸ hab ▸ ha)

/-- Entries taken over one after another: those whose names are there already
are left out. -/
def appendNew (acc : List Entry) : List Entry → List Entry
  | [] => acc
  | e :: es => appendNew (if e.1 ∈ acc.map (·.1) then acc else acc ++ [e]) es

theorem appendNew_append (acc es es' : List Entry) :
    appendNew acc (es ++ es') = appendNew (appendNew acc es) es' := by
  induction es generalizing acc with
  | nil => rfl
  | cons e es ih => exact ih _

theorem subset_appendNew (acc es : List Entry) : acc ⊆ appendNew acc es := by
  induction es generalizing acc with
  | nil => exact List.Subset.refl _
  | cons e es ih =>
    refine List.Subset.trans ?_ (ih _)
    split
    · exact List.Subset.refl _
    · exact List.subset_append_left _ _

theorem mem_of_mem_appendNew {acc es : List Entry} {e : Entry} (h : e ∈ appendNew acc es) : e ∈ acc ∨ e ∈ es := by
  induction es generalizing acc with
  | nil => exact .inl h
  | cons d es ih =>
    rcases ih h with h | h
    · split at h
      · exact .inl h
      · rcases List.mem_append.1 h with h | h
        · exact .inl h
        · exact .inr (List.mem_singleton.1 h ▸ List.mem_cons_self)
    · exact .inr (List.mem_cons_of_mem _ h)

/-- Every name that was taken over is there. -/
theorem mem_names_appendNew {acc es : List Entry} {e : Entry} (h : e ∈ es) :
    e.1 ∈ (appendNew acc es).map (·.1) := by
  induction es generalizing acc with
  | nil => cases h
  | cons d es ih =>
    rcases List.mem_cons.1 h with rfl | h
    · have hthere : e.1 ∈ (if e.1 ∈ acc.map (·.1) then acc else acc ++ [e]).map (·.1) := by
        split
        · assumption
        · simp
      obtain ⟨x, hx, hname⟩ := List.mem_map.1 hthere
      exact List.mem_map.2 ⟨x, subset_appendNew (if e.1 ∈ acc.map (·.1) then acc else acc ++ [e]) es hx, hname⟩
    · exact ih h

/-- New entries are put at the end, one after another. -/
theorem appendNew_of_nodup {acc es : List Entry} (h : (acc.map (·.1) ++ es.map (·.1)).Nodup) :
    appendNew acc es = acc ++ es := by
  induction es generalizing acc with
  | nil => simp [appendNew]
  | cons e es ih =>
    have hfresh : e.1 ∉ acc.map (·.1) := fun hmem =>
      (List.nodup_append.1 h).2.2 e.1 hmem e.1 (by simp) rfl
    rw [appendNew, if_neg hfresh, ih (by simpa using h), List.append_assoc]
    rfl

/-- A registry of named parameters: the names are those it made and those of
the known entries. -/
structure Registry.Named (stem : String) (dictionary : List Entry) (r : Registry) : Prop where
  style : r.style = .named
  stem_eq : r.stem = stem
  nodup : r.parameters.names.Nodup
  origin : ∀ e ∈ r.parameters.toList, (∃ k < r.counter, e.1 = stem ++ toString k) ∨ e ∈ dictionary

/-- The entries that commands may bring in: no name has two bindings, and none
is one that the registry makes. -/
structure Dictionary (stem : String) (dictionary : List Entry) : Prop where
  functional : ∀ d ∈ dictionary, ∀ e ∈ dictionary, d.1 = e.1 → d = e
  reserved : ∀ e ∈ dictionary, ∀ k : Nat, e.1 ≠ stem ++ toString k

theorem append_toString_inj {stem : String} {i j : Nat} (h : stem ++ toString i = stem ++ toString j) : i = j := by
  have h' := congrArg String.toList h
  rw [String.toList_append, String.toList_append, List.append_cancel_left_eq] at h'
  exact Nat.repr_inj.1 (String.toList_inj.1 h')

/-- An entry of the dictionary is registered if its name is. -/
theorem Registry.Named.mem_of_name {stem : String} {dictionary : List Entry} (hd : Dictionary stem dictionary)
    {r : Registry} (h : r.Named stem dictionary) {e : Entry} (he : e ∈ dictionary)
    (hmem : e.1 ∈ r.parameters.names) : e ∈ r.parameters.toList := by
  obtain ⟨d, hdm, hname⟩ := List.mem_map.1 hmem
  rcases h.origin d hdm with ⟨k, -, hk⟩ | hdd
  · exact absurd (hname.symm.trans hk) (hd.reserved e he k)
  · exact hd.functional d hdd e he hname ▸ hdm

/-- Taking over a known entry keeps the registry as it is, or adds the entry at
the end. -/
theorem Registry.Named.insert {stem : String} {dictionary : List Entry} (hd : Dictionary stem dictionary)
    {r : Registry} (h : r.Named stem dictionary) {e : Entry} (he : e ∈ dictionary) :
    (r.parameters.insert e.1 e.2).toList = appendNew r.parameters.toList [e] ∧
      Registry.Named stem dictionary { r with parameters := r.parameters.insert e.1 e.2 } := by
  by_cases hmem : e.1 ∈ r.parameters.names
  · -- the entry of that name is the same one
    have hinsert : (r.parameters.insert e.1 e.2).toList = r.parameters.toList :=
      Parameters.setIn_of_mem h.nodup (h.mem_of_name hd he hmem)
    have hparams : r.parameters.insert e.1 e.2 = r.parameters := by
      cases hp : r.parameters
      rw [hp] at hinsert
      exact congrArg Parameters.mk hinsert
    rw [hparams]
    exact ⟨(if_pos hmem).symm, h⟩
  · have hinsert := Parameters.toList_insert_of_notMem (b := e.2) hmem
    refine ⟨hinsert.trans (if_neg hmem).symm, h.style, h.stem_eq,
      Parameters.nodup_names_of_append h.nodup hmem hinsert, fun d hdm => ?_⟩
    rw [hinsert, List.mem_append, List.mem_singleton] at hdm
    rcases hdm with hdm | rfl
    · exact h.origin d hdm
    · exact .inr he

/-- A value gets a name that the registry has not made before. -/
theorem Registry.Named.add {stem : String} {dictionary : List Entry} (hd : Dictionary stem dictionary)
    {r : Registry} (h : r.Named stem dictionary) (b : Binding) :
    r.nextName = stem ++ toString r.counter ∧ r.nextName ∉ r.parameters.names ∧
      (r.add b).2.parameters.toList = r.parameters.toList ++ [(r.nextName, b)] ∧
      (r.add b).2.Named stem dictionary := by
  have hname : r.nextName = stem ++ toString r.counter := by simp [Registry.nextName, h.style, h.stem_eq]
  have hfresh : r.nextName ∉ r.parameters.names := by
    rw [hname]
    intro hmem
    obtain ⟨e, he, heq⟩ := List.mem_map.1 hmem
    rcases h.origin e he with ⟨k, hk, hek⟩ | hed
    · have := append_toString_inj (hek.symm.trans heq)
      omega
    · exact hd.reserved e hed _ heq
  have hlist : (r.add b).2.parameters.toList = r.parameters.toList ++ [(r.nextName, b)] :=
    Parameters.toList_insert_of_notMem hfresh
  refine ⟨hname, hfresh, hlist, h.style, h.stem_eq, Parameters.nodup_names_of_append h.nodup hfresh hlist,
    fun e he => ?_⟩
  rw [hlist, List.mem_append, List.mem_singleton] at he
  rcases he with he | rfl
  · exact (h.origin e he).imp_left fun ⟨k, hk, heq⟩ => ⟨k, Nat.lt_succ_of_lt hk, heq⟩
  · exact .inl ⟨r.counter, Nat.lt_succ_self _, hname⟩

/-- In named style a command keeps its text, and its entries are taken over one
after another. -/
theorem Registry.Named.absorb_fold {stem : String} {dictionary : List Entry} (hd : Dictionary stem dictionary)
    {es : List Entry} (hsub : es ⊆ dictionary) {r : Registry} (h : r.Named stem dictionary) (text : String) :
    ∃ r' : Registry, es.foldl Registry.absorbBinding (text, r) = (text, r') ∧ r'.Named stem dictionary ∧
      r'.parameters.toList = appendNew r.parameters.toList es := by
  induction es generalizing r with
  | nil => exact ⟨r, rfl, h, rfl⟩
  | cons e es ih =>
    obtain ⟨hlist, hnamed⟩ := h.insert hd (hsub (by simp : e ∈ e :: es))
    obtain ⟨r', hfold, hnamed', hlist'⟩ := ih (fun d hmem => hsub (by simp [hmem])) hnamed
    have hstep : Registry.absorbBinding (text, r) e =
        (text, { r with parameters := r.parameters.insert e.1 e.2 }) := by
      simp [Registry.absorbBinding, h.style]
    refine ⟨r', by rw [List.foldl_cons, hstep, hfold], hnamed', ?_⟩
    rw [hlist', hlist]
    rfl

/-! ## Positional style -/

/-- Entries numbered from `k` on. -/
def numberFrom (k : Nat) : List Entry → List Entry
  | [] => []
  | e :: es => (toString (k + 1), e.2) :: numberFrom (k + 1) es

/-- A registry of positional parameters: the names are the numbers in order. -/
structure Registry.Positional (r : Registry) : Prop where
  style : r.style = .positional
  names : r.parameters.names = (List.range r.parameters.size).map fun i => toString (i + 1)

theorem Registry.Positional.nodup {r : Registry} (h : r.Positional) : r.parameters.names.Nodup := by
  rw [h.names]
  refine List.Nodup.map (fun i j hij => ?_) List.nodup_range
  exact Nat.succ_injective (Nat.repr_inj.1 hij)

/-- A value gets the next number. -/
theorem Registry.Positional.add {r : Registry} (h : r.Positional) (b : Binding) :
    (r.add b).1 = toString (r.parameters.size + 1) ∧
      (r.add b).2.parameters.toList = r.parameters.toList ++ [(toString (r.parameters.size + 1), b)] ∧
      (r.add b).2.Positional := by
  have hname : r.nextName = toString (r.parameters.size + 1) := by simp [Registry.nextName, h.style]
  have hfresh : toString (r.parameters.size + 1) ∉ r.parameters.names := by
    rw [h.names, List.mem_map]
    rintro ⟨i, hi, heq⟩
    have : i + 1 = r.parameters.size + 1 := Nat.repr_inj.1 heq
    have := List.mem_range.1 hi
    omega
  have hlist : (r.add b).2.parameters.toList = r.parameters.toList ++ [(toString (r.parameters.size + 1), b)] := by
    rw [Registry.add, hname]
    exact Parameters.toList_insert_of_notMem hfresh
  refine ⟨by rw [Registry.add, hname], hlist, h.style, ?_⟩
  rw [Parameters.names, Parameters.size, hlist, List.map_append, List.length_append, List.length_singleton,
    List.range_succ, List.map_append]
  exact congrArg (· ++ _) h.names

/-- What each name of a command is replaced by. -/
def replacements (k : Nat) : List String → List (String × String)
  | [] => []
  | n :: ns => (n, "$" ++ toString (k + 1)) :: replacements (k + 1) ns

/-- In positional style each name of a command is replaced in turn by the next
number. -/
theorem Registry.Positional.absorb_fold (es : List Entry) {r : Registry} (h : r.Positional) (text : String) :
    ∃ r' : Registry, es.foldl Registry.absorbBinding (text, r) =
        ((replacements r.parameters.size (es.map (·.1))).foldl
          (fun s p => Text.replaceAll ("@" ++ p.1) p.2 s) text, r') ∧
      r'.Positional ∧ r'.parameters.toList = r.parameters.toList ++ numberFrom r.parameters.size es := by
  induction es generalizing r text with
  | nil => exact ⟨r, rfl, h, by simp [numberFrom]⟩
  | cons e es ih =>
    obtain ⟨hname, hlist, hpos⟩ := h.add e.2
    have hsize : (r.add e.2).2.parameters.size = r.parameters.size + 1 := by
      rw [Parameters.size, hlist, List.length_append]
      rfl
    have htoken : (r.add e.2).2.token (toString (r.parameters.size + 1)) = "$" ++ toString (r.parameters.size + 1) := by
      simp [Registry.token, hpos.style]
    have hstep : Registry.absorbBinding (text, r) e =
        (Text.replaceAll ("@" ++ e.1) ("$" ++ toString (r.parameters.size + 1)) text, (r.add e.2).2) := by
      simp only [Registry.absorbBinding, h.style]
      rw [← htoken, ← hname]
    obtain ⟨r', hfold, hpos', hlist'⟩ :=
      ih hpos (Text.replaceAll ("@" ++ e.1) ("$" ++ toString (r.parameters.size + 1)) text)
    refine ⟨r', ?_, hpos', ?_⟩
    · rw [List.foldl_cons, hstep, hfold, hsize]
      rfl
    · rw [hlist', hlist, hsize, List.append_assoc]
      rfl

/-- The number that a name of a command gets. -/
def renumber (k : Nat) (names : List String) (name : String) : String := toString (k + 1 + names.idxOf name)

theorem replacement_replacements {k : Nat} {names : List String} {name : String} (h : name ∈ names)
    (otherwise : String) : replacement (replacements k names) name otherwise = "$" ++ renumber k names name := by
  induction names generalizing k with
  | nil => cases h
  | cons n ns ih =>
    by_cases hn : n = name
    · simp [replacements, replacement, renumber, hn]
    · have hmem : name ∈ ns := (List.mem_cons.1 h).resolve_left fun heq => hn heq.symm
      have ih := ih (k := k + 1) hmem
      simp only [replacement, replacements, renumber, List.find?_cons, beq_eq_false_iff_ne.2 hn] at ih ⊢
      rw [ih, List.idxOf_cons_ne _ hn]
      congr 2
      omega

theorem numberFrom_eq_map {k : Nat} {es : List Entry} (h : (es.map (·.1)).Nodup) :
    numberFrom k es = es.map fun e => (renumber k (es.map (·.1)) e.1, e.2) := by
  induction es generalizing k with
  | nil => rfl
  | cons e es ih =>
    obtain ⟨he, hrest⟩ := List.nodup_cons.1 h
    rw [numberFrom, ih hrest, List.map_cons, List.map_cons]
    congr 1
    · simp [renumber]
    · refine List.map_congr_left fun d hd => ?_
      have hne : e.1 ≠ d.1 := fun heq => he (List.mem_map.2 ⟨d, hd, heq.symm⟩)
      rw [renumber, renumber, List.idxOf_cons_ne _ hne]
      congr 2
      omega

/-! ## Steps -/

/-- What is known of the filters in slots. -/
def Slot.Takes (P : Filter → Table → Option String → Prop) : Slot → Prop
  | .filter c => ∃ f table qualifier, c = Filter.command f table qualifier ∧ P f table qualifier
  | _ => True

/-- A filter whose parameters are readable. -/
structure Filter.Readable (f : Filter) : Prop where
  nodup : f.names.Nodup
  identifier : ∀ n ∈ f.names, IsIdentifier n

/-- A filter whose names can be found in its text, and nothing else like them. -/
structure Filter.Separable (f : Filter) (table : Table) (qualifier : Option String) : Prop extends f.Readable where
  apart : ∀ m ∈ f.names, ∀ n ∈ f.names, m ≠ n → Text.Apart m.toList n.toList
  lacks : (f.shape table qualifier).Lacks '@'

/-- The entries that settling a slot asks for. -/
def Slot.entries (r : Registry) : Slot → List Entry
  | .value v asText => [(r.nextName, boundAs v asText)]
  | .filter c =>
    match r.style with
    | .named => c.parameters.toList
    | .positional => numberFrom r.parameters.size c.parameters.toList
  | .reject _ => []

/-- Settling a slot in named style. -/
theorem Registry.Named.settle {stem : String} {dictionary : List Entry} (hd : Dictionary stem dictionary)
    (hstem : IsIdentifier stem) {r r' : Registry} (h : r.Named stem dictionary) {slot : Slot} {text : String}
    (hslot : slot.Takes fun f table qualifier => f.Readable ∧ f.bindings table qualifier ⊆ dictionary)
    (hrun : slot.settle.runOn r = (.ok text, r')) :
    r'.Named stem dictionary ∧ r'.parameters.toList = appendNew r.parameters.toList (slot.entries r) ∧
      ∃ g, Reads .named r'.parameters.toList (slot, text) g ∧ g.slots = slot.entries r := by
  cases slot with
  | value v asText =>
    rw [Slot.settle_value] at hrun
    obtain ⟨rfl, rfl⟩ := Prod.mk.inj hrun |>.imp_left Except.ok.inj
    obtain ⟨hname, hfresh, hlist, hnamed⟩ := h.add hd (boundAs v asText)
    refine ⟨hnamed, ?_, [.slot (r.nextName, boundAs v asText)], ?_, rfl⟩
    · exact hlist.trans (if_neg hfresh).symm
    · rw [Registry.token_eq, h.style]
      refine reads_value .named v asText ?_ (by rw [hlist]; simp [Registry.add])
      show (ParameterStyle.named.marker r.nextName).Valid
      rw [hname]
      exact (hstem.append_toString _).marker_valid
  | filter c =>
    obtain ⟨f, table, qualifier, rfl, hread, hsub⟩ := hslot
    rw [Slot.settle_filter] at hrun
    obtain ⟨rfl, rfl⟩ := Prod.mk.inj hrun |>.imp_left Except.ok.inj
    have hparams := Filter.parameters_command table qualifier hread.nodup
    obtain ⟨r', hfold, hnamed, hlist⟩ := h.absorb_fold hd hsub (f.command table qualifier).text
    have habsorb : r.absorb (f.command table qualifier) = ((f.command table qualifier).text, r') := by
      rw [Registry.absorb, hparams, hfold]
    have hentries : (Slot.filter (f.command table qualifier)).entries r = f.bindings table qualifier := by
      simp only [Slot.entries, h.style, hparams]
    rw [habsorb, hentries]
    refine ⟨hnamed, hlist, f.layout table qualifier id, ?_, ?_⟩
    · refine reads_filter .named hread.nodup hread.identifier (fun n hn => (hread.identifier n hn).marker_valid)
        (fun e he => ?_) ?_
      · refine hnamed.mem_of_name hd (hsub he) ?_
        rw [Parameters.names, hlist]
        exact mem_names_appendNew he
      · show Fragment.render (f.fragment table qualifier) = _
        rw [Filter.fragment_eq_shape]
        congr 1
        refine List.map_congr_left fun t _ => ?_
        cases t <;> simp [Token.map, ParameterStyle.marker, ParameterStyle.sigil, Marker.text]
    · rw [Filter.slots_layout _ _ hread.nodup]
      simp
  | reject e =>
    rw [Slot.settle_reject] at hrun
    cases hrun

/-- The text of a filter with its names replaced by numbers. -/
theorem Filter.Separable.renumbered {f : Filter} {table : Table} {qualifier : Option String}
    (h : f.Separable table qualifier) (k : Nat) :
    (replacements k f.names).foldl (fun s p => Text.replaceAll ("@" ++ p.1) p.2 s)
        (f.command table qualifier).text =
      Fragment.render ((f.shape table qualifier).map
        (Token.map fun n => (ParameterStyle.positional.marker (renumber k f.names n)).text)) := by
  have hnames : ∀ (k : Nat) (ns : List String), (replacements k ns).map (·.1) = ns := by
    intro k ns
    induction ns generalizing k with
    | nil => rfl
    | cons n ns ih => simp [replacements, ih]
  have hnumbers : ∀ (k : Nat) (ns : List String), ∀ p ∈ replacements k ns, '@' ∉ p.2.toList := by
    intro k ns
    induction ns generalizing k with
    | nil => simp [replacements]
    | cons n ns ih =>
      intro p hp
      rcases List.mem_cons.1 hp with rfl | hp
      · rw [String.toList_append, List.mem_append]
        rintro (hmem | hmem)
        · exact absurd hmem (by decide)
        · exact absurd (isDigit_of_mem_toString hmem) (by decide)
      · exact ih _ p hp
  have hfold := replaceAll_fold (f.shape_legible table qualifier).whole h.lacks
    (fun n hn => (h.identifier n (Filter.slots_shape table qualifier f ▸ hn)).at_notMem)
    (by rw [hnames]; exact h.nodup) (hnumbers k f.names)
    (fun p hp n hn hne => by
      refine h.apart n (Filter.slots_shape table qualifier f ▸ hn) p.1 ?_ hne
      exact hnames k f.names ▸ List.mem_map.2 ⟨p, hp, rfl⟩)
    ("@" ++ ·) (fun n _ => .inl rfl)
  rw [show (f.command table qualifier).text = Fragment.render (f.fragment table qualifier) from rfl,
    Filter.fragment_eq_shape, hfold]
  refine congrArg Fragment.render (List.map_congr_left fun t ht => ?_)
  cases t with
  | slot n =>
    have hn : n ∈ f.names := Filter.slots_shape table qualifier f ▸ Fragment.mem_slots.2 ht
    simp only [Token.map, replacement_replacements hn]
    simp [ParameterStyle.marker, ParameterStyle.sigil, Marker.text]
  | text s | name s | key s => rfl

/-- Settling a slot in positional style. -/
theorem Registry.Positional.settle {r r' : Registry} (h : r.Positional) {slot : Slot} {text : String}
    (hslot : slot.Takes Filter.Separable) (hrun : slot.settle.runOn r = (.ok text, r')) :
    r'.Positional ∧ r'.parameters.toList = r.parameters.toList ++ slot.entries r ∧
      ∃ g, Reads .positional r'.parameters.toList (slot, text) g ∧ g.slots = slot.entries r := by
  cases slot with
  | value v asText =>
    rw [Slot.settle_value] at hrun
    obtain ⟨rfl, rfl⟩ := Prod.mk.inj hrun |>.imp_left Except.ok.inj
    obtain ⟨hname, hlist, hpos⟩ := h.add (boundAs v asText)
    have hnext : r.nextName = toString (r.parameters.size + 1) := hname
    refine ⟨hpos, by rw [hlist, Slot.entries, hnext], [.slot (r.nextName, boundAs v asText)], ?_, rfl⟩
    rw [Registry.token_eq, h.style, hname, hnext]
    exact reads_value .positional v asText (toString_marker_valid _) (by rw [hlist]; simp)
  | filter c =>
    obtain ⟨f, table, qualifier, rfl, hsep⟩ := hslot
    rw [Slot.settle_filter] at hrun
    obtain ⟨rfl, rfl⟩ := Prod.mk.inj hrun |>.imp_left Except.ok.inj
    have hparams := Filter.parameters_command table qualifier hsep.nodup
    have hnodup : ((f.bindings table qualifier).map (·.1)).Nodup := by
      rw [Filter.bindings_names]
      exact hsep.nodup
    obtain ⟨r', hfold, hpos, hlist⟩ :=
      h.absorb_fold (f.bindings table qualifier) (f.command table qualifier).text
    rw [Filter.bindings_names, hsep.renumbered] at hfold
    have hentries : (Slot.filter (f.command table qualifier)).entries r =
        (f.bindings table qualifier).map fun e => (renumber r.parameters.size f.names e.1, e.2) := by
      simp only [Slot.entries, h.style, hparams]
      rw [numberFrom_eq_map hnodup, Filter.bindings_names]
    have hlist' : r'.parameters.toList =
        r.parameters.toList ++ (Slot.filter (f.command table qualifier)).entries r := by
      simp only [Slot.entries, h.style, hparams]
      exact hlist
    rw [Registry.absorb, hparams, hfold]
    refine ⟨hpos, hlist', f.layout table qualifier (renumber r.parameters.size f.names), ?_, ?_⟩
    · refine reads_filter .positional hsep.nodup hsep.identifier (fun n _ => toString_marker_valid _)
        (fun e he => ?_) rfl
      rw [hlist', hentries, List.mem_append]
      exact .inr (List.mem_map.2 ⟨e, he, rfl⟩)
    · rw [Filter.slots_layout _ _ hsep.nodup, hentries]
  | reject e =>
    rw [Slot.settle_reject] at hrun
    cases hrun

end ParamQuery
