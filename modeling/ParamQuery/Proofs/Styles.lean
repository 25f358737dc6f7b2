/-
The two styles of parameters give one statement. A query is compiled in both by
runs over the same slots (`Query.compile_twice`), which fail alike or bind the
same values in the same order. The named command is the positional one with
names for its numbers, where a filter that is written twice keeps its name and
its binding (`compile_styles_agree`); when no filter is, the positional text is
the named one with numbers for its names.
-/
import ParamQuery.Proofs.QueryRuns
import Mathlib

namespace ParamQuery

open Sql

/-! ## Two runs over one statement -/

/-- A run over slots that are looked up is one over what they are. -/
theorem Visits.along {β γ δ : Type} {f : δ → Naming γ} {g : β → δ} {r r' : Registry} {l : List (β × γ)}
    (h : Visits (fun b => f (g b)) r l r') : Visits f r (l.map fun x => (g x.1, x.2)) r' := by
  induction h with
  | nil => exact .nil
  | cons hb _ ih => exact .cons hb ih

theorem Refuses.along {β γ δ : Type} {f : δ → Naming γ} {g : β → δ} {r r' : Registry} {l : List β} {e : CompileError}
    (h : Refuses (fun b => f (g b)) r l e r') : Refuses f r (l.map g) e r' := by
  induction h with
  | here hb => exact .here hb
  | later hb _ ih => exact .later hb ih

/-- The error that a slot stands for, if it does. -/
def Slot.rejection? : Slot → Option CompileError
  | .reject e => some e
  | _ => none

/-- A run fails with the first rejection among the slots, whatever the registry. -/
theorem Refuses.findSome? {r r' : Registry} {l : List Slot} {e : CompileError} (h : Refuses Slot.settle r l e r') :
    l.findSome? Slot.rejection? = some e := by
  induction h with
  | @here slot l e r r₁ hb =>
    cases slot with
    | reject e' =>
      rw [Slot.settle_reject] at hb
      cases hb
      rfl
    | value v asText | filter c => cases hb
  | @later slot text l e r r₁ r₂ hb _ ih =>
    cases slot with
    | reject e' => cases hb
    | value v asText | filter c => exact ih

theorem Visits.findSome? {r r' : Registry} {l : List (Slot × String)} (h : Visits Slot.settle r l r') :
    (l.map Prod.fst).findSome? Slot.rejection? = none := by
  rw [List.findSome?_eq_none_iff]
  intro slot hmem
  obtain ⟨p, hp, rfl⟩ := List.mem_map.1 hmem
  have haccepted := h.accepted p hp
  cases hs : p.1 with
  | reject e =>
    rw [hs] at haccepted
    cases haccepted
  | value v asText | filter c => rfl

/-- Two runs over the slots of a statement: what each slot is settled to in the
first and in the second one. -/
structure Ran (s : Select Slot) (first second : Settings) (w : Select ((Slot × String) × String))
    (r r' : Registry) : Prop where
  statement : w.map (·.1.1) = s
  first : Visits Slot.settle (.ofSettings first) (w.map (·.1)).slots r
  second : Visits Slot.settle (.ofSettings second) (w.map fun x => (x.1.1, x.2)).slots r'

/-- **Compiling a query twice.** Both runs go through the slots of the same
statement, or both fail at the same one. -/
theorem Query.compile_twice (q : Query) (table : Table) {first second : Settings}
    (hstrict : first.strict = second.strict) :
    (∃ w r r', Ran (q.emit (.ofSettings table first none)) first second w r r' ∧
      q.compile table first = .ok ⟨(w.map (·.1.2)).frame.render, r.parameters⟩ ∧
      q.compile table second = .ok ⟨(w.map (·.2)).frame.render, r'.parameters⟩) ∨
    ∃ e, q.compile table first = .error e ∧ q.compile table second = .error e := by
  have hscope : Scope.ofSettings table second none = Scope.ofSettings table first none := by
    rw [Scope.ofSettings, Scope.ofSettings, hstrict]
  rcases q.compile_cases table first with ⟨u, r, hu, hv, hc⟩ | ⟨e, r, he, hc⟩
  · -- the second run, over the slots with what the first one made of them
    have hsettle (p : Slot × String) : Simulates id p.1.settle (Slot.settle p.1) := fun _ => rfl
    have hsim := Select.mapM_simulates (g := Prod.fst) hsettle u (.ofSettings second)
    rcases Select.mapM_walks (fun p : Slot × String => p.1.settle) u (.ofSettings second) with
      ⟨l, s', r', hrun, -, hv', w, rfl, rfl, rfl⟩ | ⟨e, r', hrun, he⟩
    · have hsecond : q.compile table second = .ok ⟨(w.map (·.2)).frame.render, r'.parameters⟩ := by
        simp only [Query.compile, Naming.toCommand, Naming.runOn_bind, settleSelect, hscope]
        rw [← hu, show Naming.runOn _ (Registry.ofSettings second) = _ from hsim, hrun]
        rfl
      refine .inl ⟨w, r, r', ⟨?_, hv, ?_⟩, ?_, hsecond⟩
      · rw [← hu, Select.map_map]
      · rw [Select.slots_map]
        exact hv'.along
      · rw [hc, Select.map_map]
    · -- a slot that the first run went through is not refused
      have hnone := hv.findSome?
      have hsome := he.along.findSome?
      rw [hnone] at hsome
      cases hsome
  · rcases q.compile_cases table second with ⟨u, r', hu, hv, -⟩ | ⟨e', r', he', hc'⟩
    · have hnone := hv.findSome?
      rw [← Select.slots_map, hu, hscope, he.findSome?] at hnone
      cases hnone
    · have heq := he'.findSome?
      rw [hscope, he.findSome?] at heq
      cases heq
      exact .inr ⟨e, hc, hc'⟩

/-! ## Changing the names in a text -/

/-- A lexeme whose parameter is written with another sign and name. -/
def Sql.Lexeme.renamed (sigil : Char) (rename : String → String) : Lexeme → Lexeme
  | .parameter _ name => .parameter sigil (rename name)
  | l => l

/-- Text with values in it, the values written as the given texts in turn. -/
def fill : List Piece → List (List Char) → List Char
  | .char c :: ps, ts => c :: fill ps ts
  | .value _ :: ps, t :: ts => t ++ fill ps ts
  | _, _ => []

theorem fill_plain (cs : List Char) (ps : List Piece) (ts : List (List Char)) :
    fill (plain cs ++ ps) ts = cs ++ fill ps ts := by
  induction cs with
  | nil => rfl
  | cons c cs ih => exact congrArg (c :: ·) ih

/-- A text whose parameters are bound, written again with other names for
them. -/
theorem fill_lexemes {sigil : Char} {ps : Parameters} {l : List Lexeme} (h : Bound sigil ps l) (sigil' : Char)
    (rename : String → String) :
    fill (l.flatMap (Lexeme.place sigil ps)) ((markers l).map fun m => sigil' :: (rename m.name).toList) =
      l.flatMap fun x => (x.renamed sigil' rename).text := by
  induction l with
  | nil => rfl
  | cons x l ih =>
    cases x with
    | parameter s name =>
      have hmarkers : markers (.parameter s name :: l) = ⟨s, name⟩ :: markers l := rfl
      obtain ⟨rfl, b, hb⟩ := h ⟨s, name⟩ (by simp [hmarkers])
      have ih := ih fun m hm => h m (by simp [hmarkers, hm])
      simp only [hmarkers, List.flatMap_cons, List.map_cons, Lexeme.place, if_true, hb, ← ih]
      rfl
    | char c =>
      have hmarkers : markers (.char c :: l) = markers l := rfl
      have ih := ih fun m hm => h m (by simp [hmarkers, hm])
      rw [hmarkers, List.flatMap_cons, List.flatMap_cons, ← ih]
      exact fill_plain _ _ _
    | quoted quote content =>
      have hmarkers : markers (.quoted quote content :: l) = markers l := rfl
      have ih := ih fun m hm => h m (by simp [hmarkers, hm])
      rw [hmarkers, List.flatMap_cons, List.flatMap_cons, ← ih]
      exact fill_plain _ _ _

theorem renamed_self {sigil : Char} {ps : Parameters} {l : List Lexeme} (h : Bound sigil ps l) :
    (l.flatMap fun x => (x.renamed sigil id).text) = l.flatMap Lexeme.text := by
  refine List.flatMap_congr fun x hx => ?_
  cases x with
  | parameter s name =>
    obtain ⟨rfl, -⟩ := h ⟨s, name⟩ (List.mem_filterMap.2 ⟨_, hx, rfl⟩)
    rfl
  | char c | quoted quote content => rfl

/-- **Texts with the same values in them differ in the names only.** -/
theorem text_of_renamed {sigil sigil' : Char} {ps ps' : Parameters} {l l' : List Lexeme} (h : Bound sigil ps l)
    (h' : Bound sigil' ps' l') (hpieces : l.flatMap (Lexeme.place sigil ps) = l'.flatMap (Lexeme.place sigil' ps'))
    {rename : String → String} (hnames : (markers l').map (·.name) = (markers l).map fun m => rename m.name) :
    l'.flatMap Lexeme.text = l.flatMap fun x => (x.renamed sigil' rename).text := by
  have htexts : ((markers l').map fun m => sigil' :: (id m.name).toList) =
      (markers l).map fun m => sigil' :: (rename m.name).toList := by
    have := congrArg (List.map fun n : String => sigil' :: n.toList) hnames
    simpa only [List.map_map, Function.comp_def, id] using this
  rw [← renamed_self h', ← fill_lexemes h' sigil' id, ← hpieces, htexts, fill_lexemes h]

/-- The text of one of two runs over a statement is that of the other with the
names changed. -/
theorem Reading.text_of_renamed {α : Type} {slot : α → Slot} {text text' : α → String} {w : Select α}
    {style style' : ParameterStyle} {ps ps' : Parameters} {l l' : List Lexeme}
    (h : Reading style (w.map fun x => (slot x, text x)) ps l)
    (h' : Reading style' (w.map fun x => (slot x, text' x)) ps' l') {rename : String → String}
    (hnames : ∀ x ∈ w.frame.statement.slots, namesIn (text' x) = (namesIn (text x)).map rename) :
    (w.map text').frame.render = String.ofList (l.flatMap fun x => (x.renamed style'.sigil rename).text) := by
  have hlexed := lex_text h'.lexed
  rw [Select.map_map] at hlexed
  rw [← ParamQuery.text_of_renamed h.bound h'.bound ?_ ?_, hlexed, String.ofList_toList]
  · rw [h.pieces, h'.pieces, Select.map_map, Select.map_map]
  · rw [h.markers, h'.markers]
    simp only [Select.frame_map, Frame.statement_map, Fragment.slots_map, List.flatMap_map, List.map_map,
      Function.comp_def, ParameterStyle.marker, List.map_flatMap]
    refine List.flatMap_congr fun x hx => ?_
    rw [hnames x hx, List.map_map]
    rfl

/-! ## The entries of two runs -/

/-- The value that a piece stands for, if it does. -/
def Piece.binding? : Piece → Option Binding
  | .value b => some b
  | .char _ => none

/-- The values that a slot stands for. -/
def Slot.bindings (slot : Slot) : List Binding := slot.pieces.filterMap Piece.binding?

theorem filterMap_binding?_plain (cs : List Char) : (plain cs).filterMap Piece.binding? = [] := by
  simp [plain, List.filterMap_map, List.filterMap_eq_nil_iff, Piece.binding?]

theorem Reads.bindings {style : ParameterStyle} {known : List Entry} {p : Slot × String} {g : Fragment Entry}
    (h : Reads style known p g) : g.slots.map (·.2) = p.1.bindings := by
  rw [Slot.bindings, ← h.pieces]
  clear h
  induction g with
  | nil => rfl
  | cons t g ih =>
    cases t <;>
      simp [Token.slots, Token.pieces, filterMap_binding?_plain, ih, Piece.binding?]

/-- Both runs write the values of the slots. -/
theorem Transcript.bindings {style : ParameterStyle} {known : List Entry} {l : List (Slot × String)}
    {gs : List (Fragment Entry)} (h : Transcript style known l gs) :
    (gs.flatMap Fragment.slots).map (·.2) = l.flatMap fun p => p.1.bindings := by
  induction h with
  | nil => rfl
  | cons hr _ ih => rw [List.flatMap_cons, List.map_append, hr.bindings, ih, List.flatMap_cons]

theorem Reads.length_namesIn {style : ParameterStyle} {known : List Entry} {p : Slot × String} {g : Fragment Entry}
    (h : Reads style known p g) : (namesIn p.2).length = p.1.bindings.length := by
  rw [h.namesIn_eq, ← h.bindings, List.length_map, List.length_map]

/-- Names that are changed as a whole are changed slot by slot. -/
theorem map_of_flatMap_eq {α : Type} {l : List α} {names names' : α → List String} {rename : String → String}
    (hlength : ∀ x ∈ l, (names' x).length = (names x).length)
    (h : l.flatMap names' = (l.flatMap names).map rename) : ∀ x ∈ l, names' x = (names x).map rename := by
  induction l with
  | nil => simp
  | cons a l ih =>
    rw [List.flatMap_cons, List.flatMap_cons, List.map_append] at h
    obtain ⟨hhead, htail⟩ := List.append_inj h (by rw [hlength a (by simp), List.length_map])
    intro x hx
    rcases List.mem_cons.1 hx with rfl | hx
    · exact hhead
    · exact ih (fun y hy => hlength y (by simp [hy])) htail x hx

/-- The entries that two runs over a statement write, slot by slot: under names
of their own, the same bindings. -/
structure Aligned (w : Select ((Slot × String) × String)) (es es' : List Entry) : Prop where
  names : es.map (·.1) = w.slots.flatMap fun x => namesIn x.1.2
  names' : es'.map (·.1) = w.slots.flatMap fun x => namesIn x.2
  length : ∀ x ∈ w.slots, (namesIn x.2).length = (namesIn x.1.2).length
  bindings : es.map (·.2) = es'.map (·.2)

theorem Transcript.aligned {style style' : ParameterStyle} {known known' : List Entry}
    {w : Select ((Slot × String) × String)} {gs gs' : List (Fragment Entry)}
    (h : Transcript style known (w.map (·.1)).slots gs)
    (h' : Transcript style' known' (w.map fun x => (x.1.1, x.2)).slots gs') :
    Aligned w (gs.flatMap Fragment.slots) (gs'.flatMap Fragment.slots) := by
  obtain ⟨hreads, hnames⟩ := h.reading
  obtain ⟨hreads', hnames'⟩ := h'.reading
  have hbindings := h.bindings
  have hbindings' := h'.bindings
  simp only [Select.slots_map, List.flatMap_map, List.mem_map, forall_exists_index, and_imp,
    forall_apply_eq_imp_iff₂] at hreads hreads' hnames hnames' hbindings hbindings'
  refine ⟨hnames.symm, hnames'.symm, fun x hx => ?_, hbindings.trans hbindings'.symm⟩
  obtain ⟨g, hg⟩ := hreads x hx
  obtain ⟨g', hg'⟩ := hreads' x hx
  exact hg'.length_namesIn.trans hg.length_namesIn.symm

theorem Aligned.length_eq {w : Select ((Slot × String) × String)} {es es' : List Entry} (h : Aligned w es es') :
    es.length = es'.length := by
  simpa using congrArg List.length h.bindings

/-- One list of names is the other with the names changed, if they are apart. -/
theorem exists_rename {names names' : List String} (h : names.Nodup) (hlength : names'.length = names.length) :
    ∃ rename : String → String, names' = names.map rename := by
  refine ⟨fun n => names'.getD (names.idxOf n) "", List.ext_getElem (by simp [hlength]) fun i hi hi' => ?_⟩
  have hi'' : i < names.length := by simpa using hi'
  rw [List.getElem_map, h.idxOf_getElem i hi'', List.getD_eq_getElem _ _ hi]

/-- Names that are apart, in the places of the numbers. -/
theorem numbers_eq_map {names : List String} (h : names.Nodup) :
    ((List.range names.length).map fun i => toString (i + 1)) = names.map fun n => toString (names.idxOf n + 1) := by
  refine List.ext_getElem (by simp) fun i hi hi' => ?_
  have hi'' : i < names.length := by simpa using hi'
  rw [List.getElem_map, List.getElem_map, List.getElem_range, h.idxOf_getElem i hi'']

/-! ## Generated names -/

/-- The form of the names that are made for filters: what the parameter is for,
and 32 digits. -/
def IsGenerated (name : String) : Prop :=
  ∃ key digits : List Char, name.toList = key ++ '_' :: digits ∧ digits.length = 32 ∧
    (∀ c ∈ key, c.isAlphanum) ∧ ∀ c ∈ digits, c.isAlphanum

theorem underscore_notMem {cs : List Char} (h : ∀ c ∈ cs, c.isAlphanum) : '_' ∉ cs :=
  fun hmem => absurd (h '_' hmem) (by decide)

theorem IsGenerated.isIdentifier {name : String} (h : IsGenerated name) : IsIdentifier name := by
  obtain ⟨key, digits, hname, -, hkey, hdigits⟩ := h
  refine ⟨by simp [hname], fun c hc => ?_⟩
  rw [hname, List.mem_append, List.mem_cons] at hc
  rcases hc with hc | rfl | hc
  · simp [Lexer.isIdentifier, hkey c hc]
  · decide
  · simp [Lexer.isIdentifier, hdigits c hc]

/-- The digits are as many in every name, so no name begins another one. -/
theorem IsGenerated.eq_of_isPrefix {m n : String} (hm : IsGenerated m) (hn : IsGenerated n)
    (h : m.toList <+: n.toList) : m = n := by
  obtain ⟨key, digits, hmname, hlength, hkey, -⟩ := hm
  obtain ⟨key', digits', hnname, hlength', hkey', hdigits'⟩ := hn
  obtain ⟨rest, hrest⟩ := h
  have hsplit : key' ++ '_' :: digits' = key ++ '_' :: (digits ++ rest) := by
    rw [← hnname, ← hrest, hmname, List.append_assoc]
    rfl
  obtain ⟨hk, -, hd⟩ := (List.append_cons_inj_of_notMem (underscore_notMem hkey')
    (underscore_notMem hdigits')).1 hsplit
  have hnil : rest = [] := by
    have := congrArg List.length hd
    rw [List.length_append] at this
    exact List.eq_nil_of_length_eq_zero (by omega)
  rw [hnil, List.append_nil] at hrest
  exact String.toList_inj.1 hrest

/-- The names of the filters were made for them, apart from each other and from
the names that are made with the stem, and nothing else looks like a
parameter. -/
structure Query.Generated (q : Query) (table : Table) (stem : String) : Prop extends q.SignFree table where
  made : IsIdentifier stem
  generated : ∀ n ∈ q.filterNames, IsGenerated n
  nodup : q.filterNames.Nodup
  reserved : ∀ n ∈ q.filterNames, ∀ k : Nat, n ≠ stem ++ toString k

theorem Query.Generated.nameable {q : Query} {table : Table} {stem : String} (h : q.Generated table stem) :
    q.Nameable stem :=
  ⟨h.made, fun n hn => (h.generated n hn).isIdentifier, h.nodup, h.reserved⟩

theorem Query.Generated.findable {q : Query} {table : Table} {stem : String} (h : q.Generated table stem) :
    q.Findable table :=
  ⟨h.toSignFree, fun m hm n hn hne hbegins => hne ((h.generated m hm).eq_of_isPrefix (h.generated n hn) hbegins)⟩

/-! ## The two commands -/

section Both

variable {q : Query} {table : Table} {named positional : Settings} {w : Select ((Slot × String) × String)}
  {r r' : Registry}

/-- The runs in both styles, each read back, with the entries that they write. -/
structure Ran.Both (w : Select ((Slot × String) × String)) (r r' : Registry) (es es' : List Entry)
    (l l' : List Lexeme) : Prop where
  reading : Reading .named (w.map fun x => (x.1.1, x.1.2)) r.parameters l
  reading' : Reading .positional (w.map fun x => (x.1.1, x.2)) r'.parameters l'
  aligned : Aligned w es es'
  named : r.parameters.toList = appendNew [] es
  positional : r'.parameters.toList = es'
  numbers : r'.parameters.names = (List.range es'.length).map fun i => toString (i + 1)
  subset : w.frame.statement.slots ⊆ w.slots

theorem Ran.both (h : q.Nameable named.stem) (hfind : q.Findable table) (hnamed : named.style = .named)
    (hpositional : positional.style = .positional) (hstrict : named.strict = positional.strict)
    (hran : Ran (q.emit (.ofSettings table named none)) named positional w r r') :
    ∃ es es' l l', Ran.Both w r r' es es' l l' ∧ ∀ n ∉ q.repeatedNames, (es.map (·.1)).count n ≤ 1 := by
  have hu : (w.map (·.1)).map Prod.fst = q.emit (.ofSettings table named none) := by
    rw [Select.map_map, ← hran.statement]
  have hu' : (w.map fun x => (x.1.1, x.2)).map Prod.fst = q.emit (.ofSettings table positional none) := by
    rw [Select.map_map, show Scope.ofSettings table positional none = Scope.ofSettings table named none by
      rw [Scope.ofSettings, Scope.ofSettings, hstrict], ← hran.statement]
  obtain ⟨hnodup, gs, htranscript, hlist, hcount⟩ := h.named_run hnamed hu hran.first
  obtain ⟨hpos, gs', htranscript', hlist'⟩ := h.positional_run hfind hpositional hu' hran.second
  have hbuilt : ∀ {α : Type} {g : α → Slot} {u : Select α} {settings : Settings},
      u.map g = q.emit (.ofSettings table settings none) →
        (Term.subquery u).Built (fun _ _ _ => True) fun a => (g a).Takes fun _ _ _ => True :=
    fun hu => Query.built_of_map (fun _ _ _ _ => trivial) (fun _ _ _ => trivial) hu
  obtain ⟨l, hl⟩ := lex_statement (hbuilt hu) hnodup htranscript
  obtain ⟨l', hl'⟩ := lex_statement (hbuilt hu') hpos.nodup htranscript'
  refine ⟨_, _, l, l', ⟨hl, hl', htranscript.aligned htranscript', hlist, hlist', ?_, ?_⟩, hcount⟩
  · rw [hpos.names, Parameters.size, hlist']
  · exact Select.slots_subset_of_built (hbuilt hran.statement)

/-- The named command is the positional one with names for its numbers. -/
theorem Ran.Both.named_of_positional {es es' : List Entry} {l l' : List Lexeme} (h : Ran.Both w r r' es es' l l') :
    ∃ name : String → String,
      r.parameters.toList = appendNew [] (r'.parameters.toList.map fun e => (name e.1, e.2)) ∧
      (w.map (·.1.2)).frame.render = String.ofList (l'.flatMap fun x => (x.renamed '@' name).text) := by
  have hnodup : (es'.map (·.1)).Nodup := by
    have hnumbers := h.numbers
    rw [Parameters.names, h.positional] at hnumbers
    rw [hnumbers]
    exact List.nodup_range.map fun i j hij => Nat.succ_injective (Nat.repr_inj.1 hij)
  have hlength : (es.map (·.1)).length = (es'.map (·.1)).length := by simp [h.aligned.length_eq]
  obtain ⟨name, hname⟩ := exists_rename hnodup hlength
  have hslots : ∀ x ∈ w.slots, namesIn x.1.2 = (namesIn x.2).map name := by
    refine map_of_flatMap_eq (fun x hx => (h.aligned.length x hx).symm) ?_
    rw [← h.aligned.names, ← h.aligned.names', hname]
  refine ⟨name, ?_, h.reading'.text_of_renamed h.reading fun x hx => hslots x (h.subset hx)⟩
  have hentries : es = es'.map fun e => (name e.1, e.2) := by
    rw [List.zip_of_prod hname h.aligned.bindings, List.map_map, List.zip_map']
    rfl
  rw [h.named, h.positional, ← hentries]

/-- When every name is written once, the positional command is the named one
with numbers for its names. -/
theorem Ran.Both.positional_of_named {es es' : List Entry} {l l' : List Lexeme} (h : Ran.Both w r r' es es' l l')
    (hnodup : (es.map (·.1)).Nodup) :
    r.parameters.toList.map (·.2) = r'.parameters.toList.map (·.2) ∧
      (w.map (·.2)).frame.render = String.ofList
        (l.flatMap fun x => (x.renamed '$' fun n => toString (r.parameters.names.idxOf n + 1)).text) := by
  have hlist : r.parameters.toList = es := by
    rw [h.named, appendNew_of_nodup (by simpa using hnodup), List.nil_append]
  have hnumbers : es'.map (·.1) = (es.map (·.1)).map fun n => toString ((es.map (·.1)).idxOf n + 1) := by
    rw [← numbers_eq_map hnodup, List.length_map, h.aligned.length_eq, ← h.numbers, Parameters.names, h.positional]
  have hslots : ∀ x ∈ w.slots, namesIn x.2 = (namesIn x.1.2).map fun n => toString ((es.map (·.1)).idxOf n + 1) := by
    refine map_of_flatMap_eq h.aligned.length ?_
    rw [← h.aligned.names, ← h.aligned.names', hnumbers]
  rw [Parameters.names, hlist, h.positional]
  exact ⟨h.aligned.bindings, h.reading.text_of_renamed h.reading' fun x hx => hslots x (h.subset hx)⟩

end Both

/-- **Both styles give one statement.** A query is refused with the same error
in both, or its two commands have the same values in the same places. The named
command is the positional one with names for its numbers, where an entry whose
name is there already is left out. When no filter is written more than once, the
commands bind the same values in the same order, and the positional text is the
named one with the number of each binding in the place of its name. -/
theorem compile_styles_agree {q : Query} {table : Table} {named positional : Settings}
    (h : q.Generated table named.stem) (hnamed : named.style = .named)
    (hpositional : positional.style = .positional) (hstrict : named.strict = positional.strict) :
    (∃ e, q.compile table named = .error e ∧ q.compile table positional = .error e) ∨
    ∃ cmd cmd' l l', q.compile table named = .ok cmd ∧ q.compile table positional = .ok cmd' ∧
      lex cmd.text = some l ∧ Bound '@' cmd.parameters l ∧ lex cmd'.text = some l' ∧ Bound '$' cmd'.parameters l' ∧
      l.flatMap (Lexeme.place '@' cmd.parameters) = l'.flatMap (Lexeme.place '$' cmd'.parameters) ∧
      cmd'.parameters.names = ((List.range cmd'.parameters.size).map fun i => toString (i + 1)) ∧
      (∃ name : String → String,
        cmd.parameters.toList = appendNew [] (cmd'.parameters.toList.map fun e => (name e.1, e.2)) ∧
        cmd.text = String.ofList (l'.flatMap fun x => (x.renamed '@' name).text)) ∧
      (q.repeatedNames = [] →
        cmd.parameters.toList.map (·.2) = cmd'.parameters.toList.map (·.2) ∧
        cmd'.text = String.ofList
          (l.flatMap fun x => (x.renamed '$' fun n => toString (cmd.parameters.names.idxOf n + 1)).text)) := by
  rcases q.compile_twice table hstrict with ⟨w, r, r', hran, hc, hc'⟩ | ⟨e, hc, hc'⟩
  · obtain ⟨es, es', l, l', hboth, hcount⟩ := hran.both h.nameable h.findable hnamed hpositional hstrict
    have hlexed : lex (w.map (·.1.2)).frame.render = some l := by
      simpa only [Select.map_map] using hboth.reading.lexed
    have hlexed' : lex (w.map (·.2)).frame.render = some l' := by
      simpa only [Select.map_map] using hboth.reading'.lexed
    refine .inr ⟨_, _, l, l', hc, hc', ?_⟩
    dsimp only
    refine ⟨hlexed, hboth.reading.bound, hlexed', hboth.reading'.bound, ?_, ?_, hboth.named_of_positional,
      fun hnone => hboth.positional_of_named ?_⟩
    · refine hboth.reading.pieces.trans (Eq.trans ?_ hboth.reading'.pieces.symm)
      rw [Select.map_map, Select.map_map]
    · rw [hboth.numbers, Parameters.size, hboth.positional]
    · exact List.nodup_iff_count_le_one.2 fun n => hcount n (by simp [hnone])
  · exact .inl ⟨e, hc, hc'⟩

/-- Rows with a column between two values, under a condition on constants. -/
def boundedRows : Query where
  source := ⟨"", [], none, none⟩
  selector := none
  joins := []
  conditions := [.binary .lessThan (.constant (.int 5)) (.constant (.int 6))]
  filters := [.between "a" ⟨"low_00000000000000000000000000000000", .int 1⟩
    ⟨"high_00000000000000000000000000000001", .int 9⟩]
  groupBy := []
  orderBy := []
  limit := none
  offset := none
  distinct := false
  count := false

theorem boundedRows_filterNames : boundedRows.filterNames =
    ["low_00000000000000000000000000000000", "high_00000000000000000000000000000001"] := by
  decide

set_option maxRecDepth 4000 in
theorem boundedRows_generated : boundedRows.Generated { name := "t" } "p" where
  tableName := by decide
  columns c hc := by cases hc
  sources := by
    simp [boundedRows, Query.subterms, Source.subterms, optionSubterms, joinSubterms, listSubterms, sortSubterms,
      Expr.subterms]
  paths := by
    simp [boundedRows, Query.subterms, Source.subterms, optionSubterms, joinSubterms, listSubterms, sortSubterms,
      Expr.subterms, Filter.paths]
  made := by decide
  generated := by
    rw [boundedRows_filterNames]
    simp only [List.forall_mem_cons]
    refine ⟨⟨"low".toList, List.replicate 32 '0', by decide, by decide, by simp, by simp⟩,
      ⟨"high".toList, List.replicate 31 '0' ++ ['1'], by decide, by decide, by simp, by simp⟩, by simp⟩
  nodup := by
    rw [boundedRows_filterNames]
    decide
  reserved := by
    rw [boundedRows_filterNames]
    have hheads : ∀ n ∈ ["low_00000000000000000000000000000000", "high_00000000000000000000000000000001"],
        n.toList.head? ≠ "p".toList.head? := by
      decide
    exact fun n hn => ne_made_of_head (by decide) (hheads n hn)

set_option maxRecDepth 10000 in
theorem boundedRows_compiles :
    (boundedRows.compile { name := "t" } {}).toOption.isSome ∧ boundedRows.repeatedNames = [] := by
  decide +kernel

/-- The constants of the condition come before the bounds of the filter, in
both styles. -/
theorem boundedRows_styles_agree :
    boundedRows.Generated { name := "t" } "p" ∧
      ∃ cmd cmd' l, boundedRows.compile { name := "t" } {} = .ok cmd ∧
        boundedRows.compile { name := "t" } { style := .positional } = .ok cmd' ∧ lex cmd.text = some l ∧
        cmd.parameters.toList.map (·.2) = cmd'.parameters.toList.map (·.2) ∧
        cmd'.text = String.ofList
          (l.flatMap fun x => (x.renamed '$' fun n => toString (cmd.parameters.names.idxOf n + 1)).text) := by
  obtain ⟨hcompiles, hnone⟩ := boundedRows_compiles
  have hnamed : ({} : Settings).style = .named := rfl
  have hpositional : ({ style := .positional } : Settings).style = .positional := rfl
  rcases compile_styles_agree boundedRows_generated hnamed hpositional rfl with
    ⟨e, he, -⟩ | ⟨cmd, cmd', l, l', hc, hc', hl, -, -, -, -, -, -, honce⟩
  · rw [he] at hcompiles
    cases hcompiles
  · exact ⟨boundedRows_generated, cmd, cmd', l, hc, hc', hl, honce hnone⟩

set_option maxRecDepth 4000 in
theorem nestedGuard_generated : nestedGuard.Generated { name := "t" } "p" where
  tableName := by decide
  columns c hc := by cases hc
  sources := by
    simp [nestedGuard, Query.subterms, Source.subterms, optionSubterms, joinSubterms, listSubterms, sortSubterms,
      Expr.subterms]
  paths := by
    simp [nestedGuard, Query.subterms, Source.subterms, optionSubterms, joinSubterms, listSubterms, sortSubterms,
      Expr.subterms, Filter.paths]
  made := by decide
  generated := by
    rw [nestedGuard_filterNames]
    simp only [List.forall_mem_cons]
    exact ⟨⟨"eq".toList, List.replicate 32 '0', by decide, by decide, by simp, by simp⟩, by simp⟩
  nodup := nestedGuard_nameable.nodup
  reserved := nestedGuard_nameable.reserved

set_option maxRecDepth 10000 in
theorem nestedGuard_sizes :
    (nestedGuard.compile { name := "t" } {}).toOption.map (·.parameters.size) = some 5 ∧
      (nestedGuard.compile { name := "t" } { style := .positional }).toOption.map (·.parameters.size) = some 6 := by
  decide +kernel

/-- A filter that is written twice is bound once by name and twice by number, so
the styles do not bind the same values in the same order. -/
theorem nestedGuard_styles_differ :
    nestedGuard.Generated { name := "t" } "p" ∧
      ∃ cmd cmd', nestedGuard.compile { name := "t" } {} = .ok cmd ∧
        nestedGuard.compile { name := "t" } { style := .positional } = .ok cmd' ∧
        cmd.parameters.toList.map (·.2) ≠ cmd'.parameters.toList.map (·.2) := by
  obtain ⟨hnamed, hpositional⟩ := nestedGuard_sizes
  cases hc : nestedGuard.compile { name := "t" } {} with
  | error e =>
    rw [hc] at hnamed
    cases hnamed
  | ok cmd =>
    cases hc' : nestedGuard.compile { name := "t" } { style := .positional } with
    | error e =>
      rw [hc'] at hpositional
      cases hpositional
    | ok cmd' =>
      refine ⟨nestedGuard_generated, cmd, cmd', rfl, rfl, fun hsame => ?_⟩
      have hlength := congrArg List.length hsame
      rw [hc] at hnamed
      rw [hc'] at hpositional
      simp only [Except.toOption, Option.map_some, Option.some.injEq, Parameters.size] at hnamed hpositional
      rw [List.length_map, List.length_map, hnamed, hpositional] at hlength
      cases hlength

end ParamQuery
