/-
A query inside an expression compiles as it does alone, wherever it stands.
`Command.shifted` moves up the numbers in the names that a compilation made, in
the text of a command and in its bindings. A command that is read off a layout
is moved by reading the layout off later (`Layout.Sound.command_shifted`).

`subquery_anywhere` puts this together with what settling a statement does: what
is in force around a query has no part in its text or its bindings, but for how
many numbers have been handed out.
-/
import ParamQuery.Proofs.Layouts

namespace ParamQuery

open Sql

/-! ## Moving numbers -/

/-- The number that a name was made for, if it was made for one. -/
def Settings.numberIn (settings : Settings) (name : String) : Nat :=
  match settings.style with
  | .named => Nat.ofDigitChars 10 (name.toList.drop settings.stem.length) 0
  | .positional => Nat.ofDigitChars 10 name.toList 0 - 1

/-- The name with its number moved up by `k`; a name that was not made stays. -/
def Settings.moved (settings : Settings) (k : Nat) (name : String) : String :=
  if settings.made (settings.numberIn name) = name then settings.made (k + settings.numberIn name) else name

theorem Settings.numberIn_made (settings : Settings) (i : Nat) : settings.numberIn (settings.made i) = i := by
  have hdigits (n : Nat) : Nat.ofDigitChars 10 (toString n).toList 0 = n := by
    rw [Nat.toString_eq_repr, Nat.toList_repr, Nat.ofDigitChars_ten_toDigits]
  unfold Settings.numberIn Settings.made
  cases settings.style with
  | named =>
    simp only [String.toList_append]
    rw [← String.length_toList, List.drop_left, hdigits]
  | positional =>
    simp only [hdigits]
    rfl

theorem Settings.moved_made (settings : Settings) (k i : Nat) :
    settings.moved k (settings.made i) = settings.made (k + i) := by
  rw [Settings.moved, Settings.numberIn_made, if_pos rfl]

theorem Settings.moved_of_ne {settings : Settings} {name : String} (h : ∀ i, settings.made i ≠ name) (k : Nat) :
    settings.moved k name = name :=
  if_neg (h _)

theorem Settings.made_inj {settings : Settings} {i j : Nat} (h : settings.made i = settings.made j) : i = j := by
  rw [← settings.numberIn_made i, h, settings.numberIn_made]

/-- The command with the numbers of its parameters moved up by `k`. -/
def Command.shifted (settings : Settings) (k : Nat) (c : Command) : Command where
  text := String.ofList
    (((lex c.text).getD []).flatMap fun x => (x.renamed settings.style.sigil (settings.moved k)).text)
  parameters := ⟨c.parameters.toList.map fun e => (settings.moved k e.1, e.2)⟩

/-! ## Changing names in maps and texts -/

theorem Parameters.setIn_map {rename : String → String} {n : String} {b : Binding} {es : List Entry}
    (h : ∀ e ∈ es, rename e.1 = rename n → e.1 = n) :
    setIn (rename n) b (es.map fun e => (rename e.1, e.2)) = (setIn n b es).map fun e => (rename e.1, e.2) := by
  induction es with
  | nil => rfl
  | cons e es ih =>
    obtain ⟨he, hes⟩ := List.forall_mem_cons.1 h
    by_cases hn : e.1 = n
    · simp [setIn, hn]
    · have hne : rename e.1 ≠ rename n := fun heq => hn (he heq)
      simp [setIn, hn, hne, ih hes]

/-- Names that stay apart may be changed before or after their bindings are
set. -/
theorem Parameters.toList_ofList_map {rename : String → String} {names : Set String} (hinj : names.InjOn rename)
    {es : List Entry} (hes : ∀ e ∈ es, e.1 ∈ names) :
    (ofList (es.map fun e => (rename e.1, e.2))).toList = (ofList es).toList.map fun e => (rename e.1, e.2) := by
  have hall : ∀ (es : List Entry) (ps : Parameters), (∀ e ∈ es, e.1 ∈ names) → (∀ n ∈ ps.names, n ∈ names) →
      (insertAll ⟨ps.toList.map fun e => (rename e.1, e.2)⟩ (es.map fun e => (rename e.1, e.2))).toList =
        (ps.insertAll es).toList.map fun e => (rename e.1, e.2) := by
    intro es
    induction es with
    | nil => exact fun _ _ _ => rfl
    | cons e es ih =>
      intro ps hes hps
      obtain ⟨he, hes⟩ := List.forall_mem_cons.1 hes
      have hset : setIn (rename e.1) e.2 (ps.toList.map fun e => (rename e.1, e.2)) =
          (setIn e.1 e.2 ps.toList).map fun e => (rename e.1, e.2) :=
        setIn_map fun d hd heq => hinj (hps d.1 (List.mem_map_of_mem hd)) he heq
      have hnames : ∀ n ∈ (ps.insert e.1 e.2).names, n ∈ names := fun n hn =>
        (mem_names_insert.1 hn).elim (fun heq => heq ▸ he) (hps n)
      refine Eq.trans ?_ (ih (ps.insert e.1 e.2) hes hnames)
      exact congrArg (fun l => (insertAll ⟨l⟩ (es.map fun e => (rename e.1, e.2))).toList) hset
  exact hall es .empty hes fun n hn => by cases hn

/-- The lexemes of a fragment of parameters, under other names. -/
theorem lexemes_renamed {β : Type} {f : Fragment β} (hf : f.Whole) {style : ParameterStyle} {name name' : β → String}
    {rename : String → String} (h : ∀ b ∈ f.slots, rename (name b) = name' b) :
    (Fragment.lexemes (f.map (Token.map fun b => style.marker (name b)))).map (Lexeme.renamed style.sigil rename) =
      Fragment.lexemes (f.map (Token.map fun b => style.marker (name' b))) := by
  rw [Fragment.lexemes, Fragment.lexemes, List.map_flatMap, List.flatMap_map, List.flatMap_map]
  refine List.flatMap_congr fun t ht => ?_
  cases t with
  | text s =>
    -- no parameter stands in the text itself
    have hs : isWhole s := hf (.text s) ht
    refine (List.map_congr_left fun x hx => ?_).trans (List.map_id _)
    have hnone := marker?_textLexemes hs x hx
    cases x with
    | parameter s name => cases hnone
    | char c | quoted quote content => rfl
  | name s | key s => rfl
  | slot b => simp [Token.map, Token.lexemes, Lexeme.renamed, ParameterStyle.marker, h b (Fragment.mem_slots.2 ht)]

/-! ## Moving the numbers of a layout -/

namespace Layout.Sound

variable {settings : Settings} {L : Layout} {names : List String} (h : L.Sound settings names)
  (hreserved : ∀ n ∈ names, ∀ i : Nat, n ≠ settings.stem ++ toString i)

include h

theorem marker_valid (hstem : settings.style = .named → IsIdentifier settings.stem)
    (hid : ∀ n ∈ names, IsIdentifier n) (k : Nat) {ref : Reference} (href : ref ∈ L.text.slots) :
    (settings.style.marker (ref.nameAt settings k)).Valid := by
  cases ref with
  | number i =>
    rw [Reference.nameAt, Settings.made]
    cases hs : settings.style with
    | named => exact ((hstem hs).append_toString _).marker_valid
    | positional => exact toString_marker_valid _
  | name n =>
    obtain ⟨hs, hn⟩ := h.kept n (h.bound _ href)
    rw [hs]
    exact (hid n hn).marker_valid

theorem lex_textAt (hstem : settings.style = .named → IsIdentifier settings.stem) (hid : ∀ n ∈ names, IsIdentifier n)
    (k : Nat) : lex (L.textAt settings k) =
      some (Fragment.lexemes (L.text.map (Token.map fun ref => settings.style.marker (ref.nameAt settings k)))) := by
  have hmap : L.text.map (Token.map fun ref => (settings.style.marker (ref.nameAt settings k)).text) =
      (L.text.map (Token.map fun ref => settings.style.marker (ref.nameAt settings k))).map
        (Token.map Marker.text) := by
    rw [List.map_map]
    refine List.map_congr_left fun t _ => ?_
    cases t <;> rfl
  rw [Layout.textAt, hmap]
  refine lex_render_of_legible (h.legible.map _) fun m hm => ?_
  rw [Fragment.slots_map] at hm
  obtain ⟨ref, href, rfl⟩ := List.mem_map.1 hm
  exact h.marker_valid hstem hid k href

include hreserved

/-- A name that is kept is not one that is made. -/
theorem made_ne {n : String} (hn : .name n ∈ L.bindings.map (·.1)) (i : Nat) : settings.made i ≠ n := by
  obtain ⟨hs, hmem⟩ := h.kept n hn
  simpa only [Settings.made, hs] using Ne.symm (hreserved n hmem i)

theorem moved_nameAt (k : Nat) {ref : Reference} (href : ref ∈ L.bindings.map (·.1)) :
    settings.moved k (ref.nameAt settings 0) = ref.nameAt settings k := by
  cases ref with
  | number i => rw [Reference.nameAt, Nat.zero_add, Settings.moved_made, Reference.nameAt]
  | name n => exact Settings.moved_of_ne (h.made_ne hreserved href) k

theorem nameAt_inj {k : Nat} {ref ref' : Reference} (href : ref ∈ L.bindings.map (·.1))
    (href' : ref' ∈ L.bindings.map (·.1)) (heq : ref.nameAt settings k = ref'.nameAt settings k) : ref = ref' := by
  cases ref with
  | number i =>
    cases ref' with
    | number j =>
      have hij : k + i = k + j := Settings.made_inj heq
      rw [Nat.add_left_cancel hij]
    | name n => exact absurd heq (h.made_ne hreserved href' _)
  | name m =>
    cases ref' with
    | number j => exact absurd heq.symm (h.made_ne hreserved href _)
    | name n => exact congrArg Reference.name heq

/-- **Moving the numbers of a command** that a layout gives is reading them off
later. -/
theorem command_shifted (hstem : settings.style = .named → IsIdentifier settings.stem)
    (hid : ∀ n ∈ names, IsIdentifier n) (k : Nat) :
    (L.command settings 0).shifted settings k = L.command settings k := by
  have htext : ((L.command settings 0).shifted settings k).text = L.textAt settings k := by
    have hlexemes : (Fragment.lexemes
        (L.text.map (Token.map fun ref => settings.style.marker (ref.nameAt settings 0)))).map
          (Lexeme.renamed settings.style.sigil (settings.moved k)) =
        Fragment.lexemes (L.text.map (Token.map fun ref => settings.style.marker (ref.nameAt settings k))) :=
      lexemes_renamed h.legible.whole fun ref href => h.moved_nameAt hreserved k (h.bound ref href)
    have hlexed := lex_text (h.lex_textAt hstem hid k)
    rw [← hlexemes, List.flatMap_map] at hlexed
    show String.ofList (((lex (L.textAt settings 0)).getD []).flatMap _) = _
    rw [h.lex_textAt hstem hid, Option.getD_some, hlexed, String.ofList_toList]
  have hparams : ((L.command settings 0).shifted settings k).parameters = .ofList (L.entriesAt settings k) := by
    have hentries : L.entriesAt settings k =
        (L.entriesAt settings 0).map fun e => (settings.moved k e.1, e.2) := by
      rw [Layout.entriesAt, Layout.entriesAt, List.map_map]
      refine List.map_congr_left fun e he => ?_
      rw [Function.comp_apply, h.moved_nameAt hreserved k (List.mem_map_of_mem he)]
    have hinj : Set.InjOn (settings.moved k) {n | n ∈ (L.bindings.map (·.1)).map (·.nameAt settings 0)} := by
      intro m hm n hn heq
      obtain ⟨ref, href, rfl⟩ := List.mem_map.1 hm
      obtain ⟨ref', href', rfl⟩ := List.mem_map.1 hn
      rw [h.moved_nameAt hreserved k href, h.moved_nameAt hreserved k href'] at heq
      rw [h.nameAt_inj hreserved href href' heq]
    refine Parameters.eq_of_toList ?_
    rw [hentries, Parameters.toList_ofList_map hinj fun e he => ?_]
    · rfl
    · obtain ⟨d, hd, rfl⟩ := List.mem_map.1 he
      exact List.mem_map.2 ⟨d.1, List.mem_map_of_mem hd, rfl⟩
  exact congrArg₂ Command.mk htext hparams

omit hreserved in
/-- The entries are new if the names that are made now and those that are kept
are. -/
theorem entriesAt_fresh {k : Nat} {ps : Parameters} (hmade : ∀ i, settings.made (k + i) ∉ ps.names)
    (hnames : settings.style = .named → ∀ n ∈ names, n ∉ ps.names) : ∀ e ∈ L.entriesAt settings k, e.1 ∉ ps.names := by
  intro e he
  obtain ⟨⟨ref, b⟩, hd, rfl⟩ := List.mem_map.1 he
  cases ref with
  | number i => exact hmade i
  | name n =>
    obtain ⟨hs, hn⟩ := h.kept n (List.mem_map.2 ⟨_, hd, rfl⟩)
    exact hnames hs n hn

end Layout.Sound

/-! ## Visits -/

/-- Where an expression is visited: behind which values and commands, inside
which open statements, with what in front of its columns, in which mode, and
whether beside JSON text. -/
structure Surroundings where
  events : List Event
  frames : FrameStack
  qualifier : Option String
  mode : Mode
  beside : Bool

namespace Surroundings

variable (p : Surroundings) (table : Table) (settings : Settings)

/-- The registry that the visit finds. -/
def registry : Registry := (Registry.ofSettings settings).takeAll p.events

/-- A session with the same open statements. -/
def session (r : Registry) : Session := { table, settings, registry := r, frames := p.frames }

/-- Visit an expression. -/
def visit (e : Expr) : Except CompileError String × Session :=
  let t := (e.emit (.ofSettings table settings p.qualifier) p.mode p.beside).term
  (do
    let t ← t.walk Assembly.settle Assembly.enclosed
    return t.render : Assembly String).runOn (p.session table settings (p.registry settings))

theorem continues : (p.registry settings).Continues settings :=
  (Registry.continues_ofSettings settings).takeAll p.events

/-- A visit settles on the registry; the open statements take no part. -/
theorem visit_eq (e : Expr) :
    p.visit table settings e = (p.session table settings (p.registry settings)).run
      (settleTerm (e.emit (.ofSettings table settings p.qualifier) p.mode p.beside).term) :=
  Mirrors.runOn_eq ((Term.walk_mirrors _).map fun _ _ hab => hab) _

/-- A query is settled as a statement of its own. -/
theorem visit_subquery (q : Query) :
    p.visit table settings (.subquery q) =
      match (settleSelect (q.emit (.ofSettings table settings none))).runOn (p.registry settings) with
      | (.ok f, r) => (.ok ("(" ++ f.render ++ ")"), p.session table settings r)
      | (.error e, r) => (.error e, p.session table settings r) := by
  have hemit : q.emit (.ofSettings table settings p.qualifier) = q.emit (.ofSettings table settings none) := by
    rw [Query.emit_eq, Query.emit_eq]
    rfl
  have hterm : ((Expr.subquery q).emit (.ofSettings table settings p.qualifier) p.mode p.beside).term =
      .subquery (q.emit (.ofSettings table settings none)) := by
    rw [← hemit, Expr.emit]
    rfl
  have hmap : (Term.subquery (q.emit (.ofSettings table settings none))).mapM Slot.settle =
      asSubquery ((q.emit (.ofSettings table settings none)).mapM Slot.settle) := rfl
  rw [visit_eq, hterm, Session.run, settleTerm, settleSelect, hmap, asSubquery, Naming.runOn_bind, Naming.runOn_bind,
    Naming.runOn_bind]
  have hregistry : (p.session table settings (p.registry settings)).registry = p.registry settings := rfl
  rw [hregistry]
  rcases ((q.emit (.ofSettings table settings none)).mapM Slot.settle).runOn (p.registry settings) with ⟨e | s, r⟩
  · rfl
  · have hrender : (Term.subquery s).render = "(" ++ s.frame.render ++ ")" := by
      simp [Term.render, Term.fragment, Fragment.parenthesized, Frame.render, Token.render, String.append_assoc]
    exact congrArg (fun text => (Except.ok text, p.session table settings r)) hrender

end Surroundings

/-! ## The command of a query -/

theorem Query.compile_eq_settled (q : Query) (table : Table) (settings : Settings) :
    q.compile table settings =
      match (settleSelect (q.emit (.ofSettings table settings none))).runOn (.ofSettings settings) with
      | (.ok f, r) => .ok ⟨f.render, r.parameters⟩
      | (.error e, _) => .error e := by
  rw [Query.compile, Naming.toCommand, Naming.runOn_bind]
  rcases (settleSelect (q.emit (.ofSettings table settings none))).runOn (.ofSettings settings) with ⟨e | f, r⟩ <;> rfl

/-- The names of the filters are identifiers, apart from each other and from the
names that are made with the stem, and can be found in their texts. -/
structure Query.Locatable (q : Query) (table : Table) (stem : String) : Prop extends q.Findable table where
  identifier : ∀ n ∈ q.filterNames, IsIdentifier n
  nodup : q.filterNames.Nodup
  reserved : ∀ n ∈ q.filterNames, ∀ i : Nat, n ≠ stem ++ toString i

section Commands

variable {q : Query} {table : Table} {settings : Settings}

/-- A slot becomes a layout that keeps names of the query's filters only. -/
theorem Slot.exists_sound_layout {slot : Slot}
    (h : slot.Takes fun f table qualifier => f.Separable table qualifier ∧ f.names ⊆ q.filterNames) :
    ∃ L, slot.LaidOut settings L ∧ L.Sound settings q.filterNames := by
  have hsep : slot.Takes Filter.Separable := by
    cases slot with
    | filter c =>
      obtain ⟨f, table, qualifier, hc, hsep, -⟩ := h
      exact ⟨f, table, qualifier, hc, hsep⟩
    | value v asText | reject e => trivial
  have hnames : slot.filterNames ⊆ q.filterNames := by
    cases slot with
    | filter c =>
      obtain ⟨f, table, qualifier, rfl, hsep, hsub⟩ := h
      rw [Slot.filterNames, Filter.names_command table qualifier hsep.nodup]
      exact hsub
    | value v asText | reject e => exact List.nil_subset _
  obtain ⟨L, hL⟩ := Slot.exists_layout hsep
  exact ⟨L, hL, hL.toSound.mono hnames⟩

/-- **Settling the statement of a query**: it is refused with one error on every
registry, or one layout gives what it becomes on each. -/
theorem Query.Locatable.settles (h : q.Locatable table settings.stem) :
    (∃ e, ∀ r : Registry, r.Continues settings → ∃ r',
      (settleSelect (q.emit (.ofSettings table settings none))).runOn r = (.error e, r')) ∨
    ∃ L : Layout, L.Sound settings q.filterNames ∧ ∀ r : Registry, r.Continues settings → ∃ f r',
      (settleSelect (q.emit (.ofSettings table settings none))).runOn r = (.ok f, r') ∧
      f.render = (L.command settings r.handedOut).text ∧
      r'.parameters = r.parameters.insertAll (L.command settings r.handedOut).parameters.toList := by
  obtain ⟨w, hw, hnumbered⟩ := Select.exists_numbered settings.style (q.emit (.ofSettings table settings none))
  have hbuilt := Query.built_of_filters
    (P := fun f table qualifier => f.Separable table qualifier ∧ f.names ⊆ q.filterNames)
    (fun hp _ hf => ⟨h.separable hp hf (Query.readable_of_nodup h.identifier h.nodup hp hf),
      fun _ hn => mem_filterNames hp hf hn⟩) hw
  have hlayouts : ∀ p ∈ w.slots, ∃ L, p.1.LaidOut settings L ∧ L.Sound settings q.filterNames :=
    fun p hp => Slot.exists_sound_layout (hbuilt.of_mem_slots hp)
  choose! L hL using hlayouts
  have hsettle (r : Registry) (hr : r.Continues settings) :=
    Select.settle_layout hnumbered (fun p hp => (hL p hp).1) hbuilt hr
  rw [hw] at hsettle
  cases hfirst : (q.emit (.ofSettings table settings none)).slots.findSome? Slot.rejection? with
  | some e =>
    refine .inl ⟨e, fun r hr => ?_⟩
    rcases hsettle r hr with ⟨f, r', -, hnone, -, -⟩ | ⟨e', r', hrun, hsome⟩
    · rw [hfirst] at hnone
      cases hnone
    · rw [hfirst] at hsome
      cases hsome
      exact ⟨r', hrun⟩
  | none =>
    refine .inr ⟨w.layout L, Select.layout_sound (fun p hp => (hL p hp).2) hbuilt, fun r hr => ?_⟩
    rcases hsettle r hr with ⟨f, r', hrun, -, htext, hparams⟩ | ⟨e, r', -, hsome⟩
    · refine ⟨f, r', hrun, htext.trans (Layout.text_command ..).symm, ?_⟩
      rw [hparams, Layout.parameters_command, Parameters.insertAll_ofList]
    · rw [hfirst] at hsome
      cases hsome

/-- The next names are new, if the commands before brought none of them in. -/
theorem Surroundings.made_fresh (p : Surroundings)
    (h : settings.style = .named → Dictionary settings.stem (p.events.flatMap Event.entries)) (i : Nat) :
    settings.made ((p.registry settings).handedOut + i) ∉ (p.registry settings).parameters.names := by
  intro hmem
  obtain ⟨e, he, hname⟩ := List.mem_map.1 hmem
  cases hs : settings.style with
  | named =>
    have hstart : (Registry.ofSettings settings).Labelled settings.stem (p.events.flatMap Event.entries) [] :=
      ⟨Registry.named_ofSettings hs _, rfl, rfl⟩
    have hall := (hstart.takeAll (h hs) (List.Subset.refl _)).1
    have hhanded : (p.registry settings).handedOut = (p.registry settings).counter := by
      rw [Registry.handedOut, (p.continues settings).style, hs]
    simp only [Settings.made, hs, hhanded] at hname
    rcases hall.origin e he with ⟨j, hj, hmade⟩ | hentry
    · have hij := append_toString_inj (hmade.symm.trans hname)
      have hlt : j < (p.registry settings).counter := hj
      omega
    · exact (h hs).reserved e hentry _ hname
  | positional =>
    have hnumbered := (p.continues settings).numbered hs
    have hhanded : (p.registry settings).handedOut = (p.registry settings).parameters.size := by
      rw [Registry.handedOut, hnumbered.style]
    rw [hnumbered.names, Settings.made, hs] at hmem
    obtain ⟨j, hj, hnumber⟩ := List.mem_map.1 hmem
    have hij : j + 1 = (p.registry settings).handedOut + i + 1 := Nat.repr_inj.1 hnumber
    have hlt := List.mem_range.1 hj
    omega

end Commands

/-- **A query compiles the same wherever it stands.** Alone or visited inside an
expression, it is refused with the same error, or one layout gives both
commands: alone its numbers count from zero, and inside from how many have been
handed out before. When the stem is an identifier, the second is the first with
its numbers moved. The bindings are set on top of those that are there, and go
behind them if their names are new. -/
theorem subquery_anywhere {q : Query} {table : Table} {settings : Settings} (h : q.Locatable table settings.stem) :
    (∃ e, q.compile table settings = .error e ∧
      ∀ p : Surroundings, ∃ r, p.visit table settings (.subquery q) = (.error e, p.session table settings r)) ∨
    ∃ L : Layout, L.Sound settings q.filterNames ∧ q.compile table settings = .ok (L.command settings 0) ∧
      ((settings.style = .named → IsIdentifier settings.stem) →
        ∀ k, L.command settings k = (L.command settings 0).shifted settings k) ∧
      ∀ p : Surroundings, ∃ r,
        p.visit table settings (.subquery q) =
          (.ok ("(" ++ (L.command settings (p.registry settings).handedOut).text ++ ")"), p.session table settings r) ∧
        r.parameters = (p.registry settings).parameters.insertAll
          (L.command settings (p.registry settings).handedOut).parameters.toList ∧
        ((settings.style = .named → Dictionary settings.stem (p.events.flatMap Event.entries) ∧
            ∀ n ∈ q.filterNames, n ∉ (p.registry settings).parameters.names) →
          r.parameters.toList = (p.registry settings).parameters.toList ++
            (L.command settings (p.registry settings).handedOut).parameters.toList) := by
  rcases h.settles with ⟨e, herror⟩ | ⟨L, hL, hsettles⟩
  · refine .inl ⟨e, ?_, fun p => ?_⟩
    · obtain ⟨r, hrun⟩ := herror _ (Registry.continues_ofSettings settings)
      rw [Query.compile_eq_settled, hrun]
    · obtain ⟨r, hrun⟩ := herror _ (p.continues settings)
      exact ⟨r, by rw [p.visit_subquery, hrun]⟩
  · refine .inr ⟨L, hL, ?_, fun hstem k => (hL.command_shifted h.reserved hstem h.identifier k).symm, fun p => ?_⟩
    · obtain ⟨f, r, hrun, htext, hparams⟩ := hsettles _ (Registry.continues_ofSettings settings)
      rw [Registry.handedOut_ofSettings] at htext hparams
      have hempty : r.parameters = (L.command settings 0).parameters :=
        hparams.trans (Parameters.insertAll_ofList .empty (L.entriesAt settings 0))
      rw [Query.compile_eq_settled, hrun]
      exact congrArg Except.ok (congrArg₂ Command.mk htext hempty)
    · obtain ⟨f, r, hrun, htext, hparams⟩ := hsettles _ (p.continues settings)
      refine ⟨r, by rw [p.visit_subquery, hrun, ← htext], hparams, fun hfresh => ?_⟩
      have hnew := hL.entriesAt_fresh (p.made_fresh fun hs => (hfresh hs).1) fun hs => (hfresh hs).2
      rw [hparams, Layout.parameters_command, Parameters.insertAll_ofList,
        Parameters.toList_insertAll_of_disjoint hnew]

theorem boundedRows_locatable : boundedRows.Locatable { name := "t" } "p" where
  toFindable := boundedRows_generated.findable
  identifier := boundedRows_generated.nameable.identifier
  nodup := boundedRows_generated.nodup
  reserved := boundedRows_generated.reserved

/-- A value and the columns of a renamed table before a query with a filter. -/
def behindValue : Surroundings where
  events := [.bound ⟨.int 7, none⟩]
  frames := []
  qualifier := some "a"
  mode := {}
  beside := true

theorem boundedRows_behindValue :
    boundedRows.Locatable { name := "t" } "p" ∧
      ∃ cmd r, boundedRows.compile { name := "t" } {} = .ok cmd ∧
        behindValue.visit { name := "t" } {} (.subquery boundedRows) =
          (.ok ("(" ++ (cmd.shifted {} 1).text ++ ")"), behindValue.session { name := "t" } {} r) ∧
        r.parameters.toList = ("p0", ⟨.int 7, none⟩) :: (cmd.shifted {} 1).parameters.toList := by
  have hlocatable : boundedRows.Locatable { name := "t" } ({} : Settings).stem := boundedRows_locatable
  have hstem : ({} : Settings).style = .named → IsIdentifier ({} : Settings).stem := fun _ => boundedRows_generated.made
  rcases subquery_anywhere hlocatable with ⟨e, he, -⟩ | ⟨L, -, hcompile, hshifted, hvisit⟩
  · have hcompiles := boundedRows_compiles.1
    rw [he] at hcompiles
    cases hcompiles
  · obtain ⟨r, htext, -, hparams⟩ := hvisit behindValue
    have hhanded : (behindValue.registry {}).handedOut = 1 := rfl
    have hdictionary : Dictionary ({} : Settings).stem (behindValue.events.flatMap Event.entries) :=
      ⟨fun _ hd => (List.not_mem_nil hd).elim, fun _ hd => (List.not_mem_nil hd).elim⟩
    have hfresh : ∀ n ∈ boundedRows.filterNames, n ∉ (behindValue.registry {}).parameters.names := by
      rw [boundedRows_filterNames]
      decide
    rw [hhanded, hshifted hstem] at htext hparams
    exact ⟨boundedRows_locatable, _, r, hcompile, htext, hparams fun _ => ⟨hdictionary, hfresh⟩⟩

end ParamQuery
