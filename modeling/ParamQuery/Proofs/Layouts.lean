/-
A statement is the same wherever it is settled, but for the numbers of its
parameters. A `Layout` is a command in which these are left open: its references
are numbers counted from zero and the names that filters bring with them.
`Layout.command` gives the numbers once it is known how many have been handed
out.

What a slot becomes is such a layout (`Slot.exists_layout`), and what a run makes
of the slots of a statement is one layout for all runs (`Sql.Select.settle_layout`).
-/
import ParamQuery.Proofs.SessionRegistry
import ParamQuery.Proofs.Styles

namespace ParamQuery

open Sql

/-! ## Layouts -/

/-- A parameter of a statement whose numbers are not given yet. -/
inductive Reference where
  | number (i : Nat)
  | name (n : String)

/-- The name that is made for a number. -/
def Settings.made (settings : Settings) (i : Nat) : String :=
  match settings.style with
  | .named => settings.stem ++ toString i
  | .positional => toString (i + 1)

/-- The name of a parameter when `k` numbers have been handed out before. -/
def Reference.nameAt (settings : Settings) (k : Nat) : Reference → String
  | .number i => settings.made (k + i)
  | .name n => n

/-- The reference behind `i` other numbers. A name stays what it is. -/
def Reference.shift (i : Nat) : Reference → Reference
  | .number j => .number (i + j)
  | .name n => .name n

theorem Reference.nameAt_shift (settings : Settings) (k i : Nat) (ref : Reference) :
    (ref.shift i).nameAt settings k = ref.nameAt settings (k + i) := by
  cases ref with
  | number j => simp only [Reference.shift, Reference.nameAt, Nat.add_assoc]
  | name n => rfl

/-- A text with references, and what they are bound to in the order in which
they are registered. -/
structure Layout where
  text : Fragment Reference
  bindings : List (Reference × Binding)
deriving Inhabited

namespace Layout

variable (L : Layout) (settings : Settings) (k : Nat)

/-- The text with its numbers counted from `k` on. -/
def textAt : String :=
  Fragment.render (L.text.map (Token.map fun ref => (settings.style.marker (ref.nameAt settings k)).text))

/-- What the references are bound to, with their numbers counted from `k` on. -/
def entriesAt : List Entry := L.bindings.map fun e => (e.1.nameAt settings k, e.2)

/-- The command with its numbers counted from `k` on. -/
def command : Command := ⟨L.textAt settings k, .ofList (L.entriesAt settings k)⟩

theorem text_command : (L.command settings k).text = L.textAt settings k := rfl

theorem parameters_command : (L.command settings k).parameters = .ofList (L.entriesAt settings k) := rfl

/-- The layout behind `i` other numbers. -/
def shift (i : Nat) : Layout :=
  ⟨L.text.map (Token.map (Reference.shift i)), L.bindings.map fun e => (e.1.shift i, e.2)⟩

/-- The parameters of the text are its references, which are bound. A name is
kept from the given ones, and in named style only. -/
structure Sound (names : List String) : Prop where
  legible : L.text.Legible
  bound : ∀ ref ∈ L.text.slots, ref ∈ L.bindings.map (·.1)
  kept : ∀ n, .name n ∈ L.bindings.map (·.1) → settings.style = .named ∧ n ∈ names

theorem textAt_shift (i : Nat) : (L.shift i).textAt settings k = L.textAt settings (k + i) := by
  rw [textAt, textAt, shift, List.map_map]
  refine congrArg Fragment.render (List.map_congr_left fun t _ => ?_)
  cases t <;> simp [Token.map, Reference.nameAt_shift]

theorem entriesAt_shift (i : Nat) : (L.shift i).entriesAt settings k = L.entriesAt settings (k + i) := by
  simp only [entriesAt, shift, List.map_map, Function.comp_def, Reference.nameAt_shift]

variable {L settings} {names names' : List String}

theorem Sound.mono (h : L.Sound settings names) (hsub : names ⊆ names') : L.Sound settings names' :=
  { h with kept := fun n hn => (h.kept n hn).imp_right fun hmem => hsub hmem }

theorem Sound.shift (h : L.Sound settings names) (i : Nat) : (L.shift i).Sound settings names where
  legible := h.legible.map _
  bound := by
    intro ref href
    rw [Layout.shift, Fragment.slots_map] at href
    obtain ⟨ref, hmem, rfl⟩ := List.mem_map.1 href
    obtain ⟨e, he, rfl⟩ := List.mem_map.1 (h.bound ref hmem)
    exact List.mem_map.2 ⟨_, List.mem_map_of_mem he, rfl⟩
  kept := by
    intro n hn
    simp only [Layout.shift, List.map_map, List.mem_map, Function.comp_apply] at hn
    obtain ⟨⟨ref, b⟩, he, heq⟩ := hn
    cases ref with
    | number j => cases heq
    | name m =>
      cases heq
      exact h.kept n (List.mem_map.2 ⟨_, he, rfl⟩)

end Layout

/-! ## Registries -/

/-- How many numbers a registry has handed out. -/
def Registry.handedOut (r : Registry) : Nat :=
  match r.style with
  | .named => r.counter
  | .positional => r.parameters.size

theorem Registry.handedOut_ofSettings (settings : Settings) : (Registry.ofSettings settings).handedOut = 0 := by
  rw [Registry.handedOut, Registry.ofSettings]
  cases settings.style <;> rfl

theorem Parameters.eq_of_toList {ps qs : Parameters} (h : ps.toList = qs.toList) : ps = qs := congrArg Parameters.mk h

theorem Parameters.insertAll_append (ps : Parameters) (es es' : List Entry) :
    ps.insertAll (es ++ es') = (ps.insertAll es).insertAll es' := List.foldl_append

theorem Parameters.setIn_append {name : String} {b : Binding} {front rest : List Entry}
    (h : name ∉ front.map (·.1)) : setIn name b (front ++ rest) = front ++ setIn name b rest := by
  induction front with
  | nil => rfl
  | cons e front ih =>
    simp only [List.map_cons, List.mem_cons, not_or] at h
    simp [setIn, Ne.symm h.1, ih h.2]

/-- New names go behind the ones that are there. -/
theorem Parameters.toList_insertAll_of_disjoint {es : List Entry} {ps : Parameters}
    (h : ∀ e ∈ es, e.1 ∉ ps.names) : (ps.insertAll es).toList = ps.toList ++ (Parameters.ofList es).toList := by
  have hrest : ∀ (es rest : List Entry), (∀ e ∈ es, e.1 ∉ ps.names) →
      (Parameters.insertAll ⟨ps.toList ++ rest⟩ es).toList = ps.toList ++ (Parameters.insertAll ⟨rest⟩ es).toList := by
    intro es
    induction es with
    | nil => exact fun _ _ => rfl
    | cons e es ih =>
      intro rest h
      obtain ⟨he, hes⟩ := List.forall_mem_cons.1 h
      have hinsert : Parameters.insert ⟨ps.toList ++ rest⟩ e.1 e.2 = ⟨ps.toList ++ setIn e.1 e.2 rest⟩ :=
        congrArg Parameters.mk (Parameters.setIn_append he)
      show (Parameters.insertAll (Parameters.insert ⟨ps.toList ++ rest⟩ e.1 e.2) es).toList = _
      rw [hinsert, ih _ hes]
      rfl
  have hall := hrest es [] h
  rw [List.append_nil] at hall
  exact hall

theorem Parameters.setIn_setIn_self (name : String) (b c : Binding) (es : List Entry) :
    setIn name b (setIn name c es) = setIn name b es := by
  induction es with
  | nil => simp [setIn]
  | cons e es ih => by_cases he : e.1 = name <;> simp [setIn, he, ih]

theorem Parameters.setIn_comm_of_mem {m n : String} (hne : m ≠ n) (b c : Binding) {es : List Entry}
    (h : n ∈ es.map (·.1)) : setIn n b (setIn m c es) = setIn m c (setIn n b es) := by
  induction es with
  | nil => cases h
  | cons e es ih =>
    by_cases hn : e.1 = n
    · simp [setIn, hn, Ne.symm hne]
    · have ih := ih ((List.mem_cons.1 h).resolve_left (Ne.symm hn))
      by_cases hm : e.1 = m <;> simp [setIn, hn, hm, hne, ih]

theorem Parameters.mem_names_insert {ps : Parameters} {m n : String} {b : Binding} :
    m ∈ (ps.insert n b).names ↔ m = n ∨ m ∈ ps.names := by
  obtain ⟨es⟩ := ps
  simp only [names, insert]
  induction es with
  | nil => simp [setIn]
  | cons e es ih => by_cases he : e.1 = n <;> simp [setIn, he, ih, or_left_comm]

theorem Parameters.nodup_names_insert {ps : Parameters} (h : ps.names.Nodup) (n : String) (b : Binding) :
    (ps.insert n b).names.Nodup := by
  obtain ⟨es⟩ := ps
  simp only [names, insert] at h ⊢
  induction es with
  | nil => simp [setIn]
  | cons e es ih =>
    obtain ⟨he, hes⟩ := List.nodup_cons.1 h
    by_cases hn : e.1 = n
    · simpa [setIn, hn] using h
    · have hmem : e.1 ∉ (Parameters.insert ⟨es⟩ n b).names := fun hmem => (mem_names_insert.1 hmem).elim hn he
      simp only [setIn, if_neg hn, List.map_cons]
      exact List.nodup_cons.2 ⟨hmem, ih hes⟩

/-- A name that is there and is not set later may as well be set at once. -/
theorem Parameters.insertAll_insert_of_mem {es : List Entry} {ps : Parameters} {n : String} {b : Binding}
    (h : n ∈ ps.names) (hes : n ∉ es.map (·.1)) : (ps.insertAll es).insert n b = (ps.insert n b).insertAll es := by
  induction es generalizing ps with
  | nil => rfl
  | cons e es ih =>
    simp only [List.map_cons, List.mem_cons, not_or] at hes
    have hcomm : (ps.insert e.1 e.2).insert n b = (ps.insert n b).insert e.1 e.2 :=
      congrArg Parameters.mk (setIn_comm_of_mem (Ne.symm hes.1) b e.2 h)
    show ((ps.insert e.1 e.2).insertAll es).insert n b = ((ps.insert n b).insert e.1 e.2).insertAll es
    rw [ih (mem_names_insert.2 (.inr h)) hes.2, hcomm]

theorem Parameters.insertAll_setIn {es : List Entry} (h : (es.map (·.1)).Nodup) (ps : Parameters) (n : String)
    (b : Binding) : ps.insertAll (setIn n b es) = (ps.insertAll es).insert n b := by
  induction es generalizing ps with
  | nil => rfl
  | cons e es ih =>
    obtain ⟨he, hes⟩ := List.nodup_cons.1 h
    obtain ⟨m, c⟩ := e
    by_cases hm : m = n
    · subst hm
      have hself : (ps.insert m c).insert m b = ps.insert m b := congrArg Parameters.mk (setIn_setIn_self m b c _)
      have hset : setIn m b ((m, c) :: es) = (m, b) :: es := if_pos rfl
      rw [hset]
      show (ps.insert m b).insertAll es = ((ps.insert m c).insertAll es).insert m b
      rw [insertAll_insert_of_mem (mem_names_insert.2 (.inl rfl)) he, hself]
    · have hset : setIn n b ((m, c) :: es) = (m, c) :: setIn n b es := if_neg hm
      rw [hset]
      exact ih hes (ps.insert m c)

/-- Bindings are set one by one as the map that they make is set. -/
theorem Parameters.insertAll_ofList (ps : Parameters) (es : List Entry) :
    ps.insertAll (ofList es).toList = ps.insertAll es := by
  have hall : ∀ (es : List Entry) (qs : Parameters), qs.names.Nodup →
      ps.insertAll (qs.insertAll es).toList = (ps.insertAll qs.toList).insertAll es := by
    intro es
    induction es with
    | nil => exact fun _ _ => rfl
    | cons e es ih =>
      intro qs hnodup
      show ps.insertAll ((qs.insert e.1 e.2).insertAll es).toList =
        ((ps.insertAll qs.toList).insert e.1 e.2).insertAll es
      rw [ih _ (nodup_names_insert hnodup _ _), ← insertAll_setIn hnodup]
      rfl
  exact hall es .empty List.nodup_nil

/-- A registry that values and commands have been given to, whatever they were. -/
structure Registry.Continues (settings : Settings) (r : Registry) : Prop where
  style : r.style = settings.style
  stem : settings.style = .named → r.stem = settings.stem
  numbered : settings.style = .positional → r.Positional

theorem Registry.continues_ofSettings (settings : Settings) : (Registry.ofSettings settings).Continues settings :=
  ⟨rfl, fun _ => rfl, Registry.positional_ofSettings⟩

theorem Registry.Continues.take {settings : Settings} {r : Registry} (h : r.Continues settings) (event : Event) :
    (r.take event).Continues settings := by
  cases hstyle : settings.style with
  | named =>
    cases event with
    | bound b => exact ⟨h.style, h.stem, by simp [hstyle]⟩
    | absorbed c =>
      rw [Registry.take, Registry.absorb_named (h.style.trans hstyle)]
      exact ⟨h.style, h.stem, by simp [hstyle]⟩
  | positional =>
    have hpos := (Registry.Counted.take ⟨h.numbered hstyle, rfl⟩ event).1.toPositional
    exact ⟨hpos.style.trans hstyle.symm, by simp [hstyle], fun _ => hpos⟩

theorem Registry.Continues.takeAll {settings : Settings} {r : Registry} (h : r.Continues settings)
    (events : List Event) :
    (r.takeAll events).Continues settings := by
  induction events generalizing r with
  | nil => exact h
  | cons event events ih => exact ih (h.take event)

/-! ## Slots -/

/-- How many numbers a slot takes. -/
def Slot.width (style : ParameterStyle) : Slot → Nat
  | .value _ _ => 1
  | .filter c =>
    match style with
    | .named => 0
    | .positional => c.parameters.size
  | .reject _ => 0

/-- What a slot becomes, wherever it is settled. -/
structure Slot.LaidOut (settings : Settings) (slot : Slot) (L : Layout) : Prop
    extends L.Sound settings slot.filterNames where
  settles : ∀ {r r' : Registry} {text : String}, r.Continues settings → slot.settle.runOn r = (.ok text, r') →
    r'.Continues settings ∧ r'.handedOut = r.handedOut + slot.width settings.style ∧
      text = L.textAt settings r.handedOut ∧ r'.parameters = r.parameters.insertAll (L.entriesAt settings r.handedOut)

/-- A value gets the next number. -/
theorem Slot.value_laidOut (settings : Settings) (v : Literal) (asText : Bool) :
    (Slot.value v asText).LaidOut settings ⟨[.slot (.number 0)], [(.number 0, boundAs v asText)]⟩ where
  legible := .slot _
  bound := by simp [Token.slots]
  kept := by simp
  settles := by
    intro r r' text hr hrun
    rw [Slot.settle_value] at hrun
    obtain ⟨rfl, rfl⟩ := Prod.mk.inj hrun |>.imp_left Except.ok.inj
    have hstyle := hr.style
    obtain ⟨hname, hnext⟩ : r.nextName = (Reference.number 0).nameAt settings r.handedOut ∧
        (r.add (boundAs v asText)).2.handedOut = r.handedOut + 1 := by
      cases hs : settings.style with
      | named =>
        rw [hs] at hstyle
        simp [Registry.nextName, Reference.nameAt, Settings.made, Registry.handedOut, Registry.add, hs, hstyle,
          hr.stem hs]
      | positional =>
        rw [hs] at hstyle
        obtain ⟨-, hlist, hpos⟩ := (hr.numbered hs).add (boundAs v asText)
        refine ⟨by simp [Registry.nextName, Reference.nameAt, Settings.made, Registry.handedOut, hs, hstyle], ?_⟩
        simp [Registry.handedOut, hpos.style, hstyle, Parameters.size, hlist]
    refine ⟨hr.take (.bound (boundAs v asText)), hnext, ?_, ?_⟩
    · rw [Registry.token_eq, hstyle]
      simp [Layout.textAt, Token.map, Token.render, ← hname, Registry.add]
    · simp [Layout.entriesAt, Parameters.insertAll, ← hname, Registry.add]

/-- In named style a filter keeps its text. -/
theorem Slot.filter_laidOut_named {settings : Settings} (hstyle : settings.style = .named) {f : Filter} {table : Table}
    {qualifier : Option String} (h : f.Readable) :
    (Slot.filter (f.command table qualifier)).LaidOut settings
      ⟨(f.shape table qualifier).map (Token.map .name),
        (f.bindings table qualifier).map fun e => (.name e.1, e.2)⟩ where
  legible := (f.shape_legible table qualifier).map _
  bound := by
    rw [Fragment.slots_map, Filter.slots_shape, ← Filter.bindings_names table qualifier]
    simp
  kept := by
    rw [Slot.filterNames, Filter.names_command table qualifier h.nodup, ← Filter.bindings_names table qualifier]
    simp [hstyle]
  settles := by
    intro r r' text hr hrun
    have hnamed : r.style = .named := hr.style.trans hstyle
    have hcontinues := hr.take (.absorbed (f.command table qualifier))
    rw [Registry.take, Registry.absorb_named hnamed] at hcontinues
    rw [Slot.settle_filter, Registry.absorb_named hnamed] at hrun
    obtain ⟨rfl, rfl⟩ := Prod.mk.inj hrun |>.imp_left Except.ok.inj
    refine ⟨hcontinues, ?_, ?_, ?_⟩
    · simp [Registry.handedOut, hnamed, Slot.width, hstyle]
    · show Fragment.render (f.fragment table qualifier) = _
      rw [Filter.fragment_eq_shape, Layout.textAt, List.map_map]
      refine congrArg Fragment.render (List.map_congr_left fun t _ => ?_)
      cases t <;> simp [Token.map, Reference.nameAt, ParameterStyle.marker, ParameterStyle.sigil, Marker.text, hstyle]
    · rw [Filter.parameters_command table qualifier h.nodup]
      simp [Layout.entriesAt, Reference.nameAt, Function.comp_def]

/-- In positional style its names become the next numbers. -/
theorem Slot.filter_laidOut_positional {settings : Settings} (hstyle : settings.style = .positional) {f : Filter}
    {table : Table} {qualifier : Option String} (h : f.Separable table qualifier) :
    (Slot.filter (f.command table qualifier)).LaidOut settings
      ⟨(f.shape table qualifier).map (Token.map fun n => .number (f.names.idxOf n)),
        (f.bindings table qualifier).map fun e => (.number (f.names.idxOf e.1), e.2)⟩ where
  legible := (f.shape_legible table qualifier).map _
  bound := by
    rw [Fragment.slots_map, Filter.slots_shape, ← Filter.bindings_names table qualifier]
    simp
  kept := by simp
  settles := by
    intro r r' text hr hrun
    have hnumbered := hr.numbered hstyle
    have hhanded : r.handedOut = r.parameters.size := by simp [Registry.handedOut, hnumbered.style]
    have hcontinues := hr.take (.absorbed (f.command table qualifier))
    have hparams := Filter.parameters_command table qualifier h.nodup
    have hnodup : ((f.bindings table qualifier).map (·.1)).Nodup := by
      rw [Filter.bindings_names]
      exact h.nodup
    have hnumber (n : String) : renumber r.parameters.size f.names n =
        (Reference.number (f.names.idxOf n)).nameAt settings r.handedOut := by
      simp only [renumber, Reference.nameAt, Settings.made, hstyle, hhanded]
      congr 1
      omega
    obtain ⟨r₁, hfold, hpos, hlist⟩ :=
      hnumbered.absorb_fold (f.bindings table qualifier) (f.command table qualifier).text
    rw [Filter.bindings_names, h.renumbered] at hfold
    rw [numberFrom_eq_map hnodup, Filter.bindings_names] at hlist
    rw [Registry.take, Registry.absorb, hparams, hfold] at hcontinues
    rw [Slot.settle_filter, Registry.absorb, hparams, hfold] at hrun
    obtain ⟨rfl, rfl⟩ := Prod.mk.inj hrun |>.imp_left Except.ok.inj
    refine ⟨hcontinues, ?_, ?_, ?_⟩
    · have hlength := congrArg List.length hlist
      simp only [List.length_append, List.length_map] at hlength
      simp [Registry.handedOut, hpos.style, hnumbered.style, Slot.width, hstyle, Parameters.size, hparams, hlength]
    · rw [Layout.textAt, List.map_map]
      refine congrArg Fragment.render (List.map_congr_left fun t _ => ?_)
      cases t <;> simp [Token.map, hnumber, hstyle]
    · -- the numbers are new
      have hentries : Layout.entriesAt ⟨(f.shape table qualifier).map (Token.map fun n => .number (f.names.idxOf n)),
          (f.bindings table qualifier).map fun e => (.number (f.names.idxOf e.1), e.2)⟩ settings r.handedOut =
          (f.bindings table qualifier).map fun e => (renumber r.parameters.size f.names e.1, e.2) := by
        simp only [Layout.entriesAt, List.map_map, Function.comp_def, hnumber]
      have hnames := hpos.nodup
      rw [Parameters.names, hlist, List.map_append, List.nodup_append] at hnames
      refine Parameters.eq_of_toList ?_
      rw [hentries, Parameters.toList_insertAll_of_disjoint, Parameters.ofList_of_nodup hnames.2.1, hlist]
      exact fun e he hmem => hnames.2.2 e.1 hmem e.1 (List.mem_map_of_mem he) rfl

theorem Slot.exists_layout {settings : Settings} {slot : Slot} (h : slot.Takes Filter.Separable) :
    ∃ L, slot.LaidOut settings L := by
  cases slot with
  | value v asText => exact ⟨_, Slot.value_laidOut settings v asText⟩
  | filter c =>
    obtain ⟨f, table, qualifier, rfl, hsep⟩ := h
    cases hstyle : settings.style with
    | named => exact ⟨_, Slot.filter_laidOut_named hstyle hsep.toReadable⟩
    | positional => exact ⟨_, Slot.filter_laidOut_positional hstyle hsep⟩
  | reject e =>
    refine ⟨⟨[], []⟩, ⟨.nil, by simp, by simp⟩, fun _ hrun => ?_⟩
    rw [Slot.settle_reject] at hrun
    cases hrun

/-! ## Statements -/

/-- Each slot stands with how many numbers the slots before it take, and `i`
others. -/
def Numbered (style : ParameterStyle) : Nat → List (Slot × Nat) → Prop
  | _, [] => True
  | i, p :: l => p.2 = i ∧ Numbered style (i + p.1.width style) l

/-- A step that counts the numbers and settles nothing. -/
def Slot.number (style : ParameterStyle) (slot : Slot) : Naming Nat :=
  modifyGet fun r => (r.counter, { r with counter := r.counter + slot.width style })

theorem Slot.runOn_number (style : ParameterStyle) (slot : Slot) (r : Registry) :
    (slot.number style).runOn r = (.ok r.counter, { r with counter := r.counter + slot.width style }) := rfl

theorem Visits.numbered {style : ParameterStyle} {r r' : Registry} {l : List (Slot × Nat)}
    (h : Visits (Slot.number style) r l r') : Numbered style r.counter l := by
  induction h with
  | nil => trivial
  | cons hb _ ih =>
    rw [Slot.runOn_number] at hb
    cases hb
    exact ⟨rfl, ih⟩

theorem not_refuses_number {style : ParameterStyle} {r r' : Registry} {l : List Slot} {e : CompileError} :
    ¬Refuses (Slot.number style) r l e r' := by
  intro h
  induction h with
  | here hb => cases hb
  | later _ _ ih => exact ih

/-- The slots of a statement can be numbered in the order in which they are
visited. -/
theorem Sql.Select.exists_numbered (style : ParameterStyle) (s : Select Slot) :
    ∃ w : Select (Slot × Nat), w.map Prod.fst = s ∧ Numbered style 0 w.slots := by
  rcases Select.mapM_walks (Slot.number style) s (.ofSettings {}) with ⟨l, s', r, -, -, hv, w, hw, -, rfl⟩ |
      ⟨e, r, -, he⟩
  · exact ⟨w, hw, hv.numbered⟩
  · exact absurd he not_refuses_number

/-- **A run over slots** gives each the text of its layout, and registers what
the layouts bind. -/
theorem Visits.laidOut {settings : Settings} {L : Slot × Nat → Layout} {r r' : Registry}
    {l : List ((Slot × Nat) × String)} (hv : Visits (fun p : Slot × Nat => p.1.settle) r l r')
    (hL : ∀ x ∈ l, x.1.1.LaidOut settings (L x.1)) {i k : Nat} (hnumbered : Numbered settings.style i (l.map Prod.fst))
    (hr : r.Continues settings) (hk : r.handedOut = k + i) :
    (∀ x ∈ l, x.2 = ((L x.1).shift x.1.2).textAt settings k) ∧
      r'.parameters = r.parameters.insertAll (l.flatMap fun x => ((L x.1).shift x.1.2).entriesAt settings k) := by
  induction hv generalizing i with
  | nil => exact ⟨by simp, rfl⟩
  | @cons p text l r r₁ r₂ hb _ ih =>
    obtain ⟨rfl, hrest⟩ := hnumbered
    obtain ⟨hcontinues, hhanded, htext, hparams⟩ := (hL (p, text) List.mem_cons_self).settles hr hb
    obtain ⟨htexts, hall⟩ := ih (fun x hx => hL x (List.mem_cons_of_mem _ hx)) hrest hcontinues
      (by rw [hhanded, hk, Nat.add_assoc])
    refine ⟨List.forall_mem_cons.2 ⟨?_, htexts⟩, ?_⟩
    · rw [htext, Layout.textAt_shift, hk]
    · rw [hall, hparams, List.flatMap_cons, Parameters.insertAll_append, Layout.entriesAt_shift, hk]

/-- The layout of a statement whose slots are numbered. -/
def Sql.Select.layout (w : Select (Slot × Nat)) (L : Slot × Nat → Layout) : Layout :=
  ⟨w.frame.statement.splice fun p => ((L p).shift p.2).text, w.slots.flatMap fun p => ((L p).shift p.2).bindings⟩

theorem Sql.Select.layout_sound {settings : Settings} {names : List String} {w : Select (Slot × Nat)}
    {L : Slot × Nat → Layout} (hL : ∀ p ∈ w.slots, (L p).Sound settings names) {ok : Method → Nat → Nat → Prop}
    {S : Slot × Nat → Prop} (hbuilt : (Term.subquery w).Built ok S) : (w.layout L).Sound settings names := by
  have hsubset := Select.slots_subset_of_built hbuilt
  refine ⟨?_, fun ref href => ?_, fun n hn => ?_⟩
  · exact (Select.legible_of_built hbuilt).splice fun p hp => ((hL p (hsubset hp)).shift p.2).legible
  · rw [Select.layout, Fragment.slots_splice] at href
    obtain ⟨p, hp, href⟩ := List.mem_flatMap.1 href
    rw [Select.layout, List.map_flatMap]
    exact List.mem_flatMap.2 ⟨p, hsubset hp, ((hL p (hsubset hp)).shift p.2).bound ref href⟩
  · rw [Select.layout, List.map_flatMap] at hn
    obtain ⟨p, hp, hn⟩ := List.mem_flatMap.1 hn
    exact ((hL p hp).shift p.2).kept n hn

/-- **Settling a statement**, from whatever registry: it is refused at the first
slot that refuses, or it is its layout with the numbers that come next. -/
theorem Sql.Select.settle_layout {settings : Settings} {w : Select (Slot × Nat)} {L : Slot × Nat → Layout}
    (hnumbered : Numbered settings.style 0 w.slots) (hL : ∀ p ∈ w.slots, p.1.LaidOut settings (L p))
    {ok : Method → Nat → Nat → Prop} {S : Slot × Nat → Prop} (hbuilt : (Term.subquery w).Built ok S) {r : Registry}
    (hr : r.Continues settings) :
    (∃ f r', (settleSelect (w.map Prod.fst)).runOn r = (.ok f, r') ∧
      (w.map Prod.fst).slots.findSome? Slot.rejection? = none ∧
      f.render = (w.layout L).textAt settings r.handedOut ∧
      r'.parameters = r.parameters.insertAll ((w.layout L).entriesAt settings r.handedOut)) ∨
    ∃ e r', (settleSelect (w.map Prod.fst)).runOn r = (.error e, r') ∧
      (w.map Prod.fst).slots.findSome? Slot.rejection? = some e := by
  have hsettle (p : Slot × Nat) : Simulates id p.1.settle (Slot.settle p.1) := fun _ => rfl
  have hsim : ((w.map Prod.fst).mapM Slot.settle).runOn r = (w.mapM fun p : Slot × Nat => p.1.settle).runOn r :=
    Select.mapM_simulates (g := Prod.fst) hsettle w r
  rw [settleSelect, Naming.runOn_bind, hsim]
  rcases Select.mapM_walks (fun p : Slot × Nat => p.1.settle) w r with
    ⟨l, s', r', hrun, -, hv, u, rfl, rfl, rfl⟩ | ⟨e, r', hrun, he⟩
  · rw [Select.slots_map] at hnumbered hL
    obtain ⟨htexts, hparams⟩ := hv.laidOut (fun x hx => hL x.1 (List.mem_map_of_mem hx)) hnumbered hr rfl
    have hsubset : u.frame.statement.slots ⊆ u.slots :=
      Select.slots_subset_of_built (Term.Built.of_map (f := Prod.fst) (t := .subquery u) hbuilt)
    refine .inl ⟨(u.map Prod.snd).frame, r', ?_, ?_, ?_, ?_⟩
    · rw [hrun]
      rfl
    · have hnone := hv.along.findSome?
      rw [List.map_map] at hnone
      rw [Select.slots_map, Select.slots_map, List.map_map]
      exact hnone
    · rw [Frame.render, Select.frame_map, Frame.statement_map, Layout.textAt, Select.layout, Select.frame_map,
        Frame.statement_map, Fragment.splice_map, Fragment.map_splice]
      exact (Fragment.render_splice fun x hx => (htexts x (hsubset hx)).symm).symm
    · rw [hparams, Layout.entriesAt, Select.layout, Select.slots_map, List.flatMap_map, List.map_flatMap]
      rfl
  · refine .inr ⟨e, r', ?_, ?_⟩
    · rw [hrun]
    · rw [Select.slots_map]
      exact he.along.findSome?

end ParamQuery
