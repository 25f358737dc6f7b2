/-
Where the values of a compiled query stand. Reading the text of the command and
putting each binding in the place of its token gives the query with its values
written where they occur (`compile_places_values`). Every token has its binding
and every binding a token; a binding has one token only, apart from a filter's
in a test that guards several arms, which named style writes for each arm
(`nestedGuard_repeats_token`).
-/
import ParamQuery.Proofs.QueryRuns
import Mathlib

namespace ParamQuery

open Sql

/-! ## Queries that can be read back -/

/-- What makes the parameters of a compiled query readable: the calls are such
as their methods accept, and the names of the filters can be told apart; in
positional style they can be found in the texts of the filters. -/
structure Query.Bindable (q : Query) (table : Table) (settings : Settings) : Prop
    extends q.Nameable settings.stem where
  calls : ∀ method receiver arguments, Expr.call method receiver arguments ∈ q.subterms →
    ∃ e, Expr.callOf method receiver arguments = .ok e
  findable : settings.style = .positional → q.Findable table

section Bindable

variable {q : Query} {table : Table} {settings : Settings}

theorem Query.Bindable.regular (h : q.Bindable table settings) :
    ∀ x ∈ (Expr.subquery q).subterms, x.Regular := by
  intro x hx
  cases x with
  | call method receiver arguments =>
    refine h.calls method receiver arguments ?_
    rcases List.mem_cons.1 hx with hx | hx
    · cases hx
    · exact hx
  | subquery p => exact fun f hf => h.readable hx hf
  | source s | binary op left right | conditional test ifTrue ifFalse | constant value | member root path type
  | project items | unary op operand => trivial

/-- A command read back: the names of its parameters from left to right, which
are its keys, and the values where they occur in the query. -/
structure ReadBack (q : Query) (table : Table) (settings : Settings) (cmd : Command) (l : List Lexeme)
    (names : List String) : Prop where
  lexed : lex cmd.text = some l
  markers : (markers l).Perm (names.map settings.style.marker)
  mem_names : ∀ n, n ∈ names ↔ n ∈ cmd.parameters.names
  nodup : cmd.parameters.names.Nodup
  pieces : l.flatMap (Lexeme.place settings.style.sigil cmd.parameters) = q.inline (.ofSettings table settings none)

/-- What the run over a bindable query wrote is read back. -/
theorem Query.Bindable.readBack (h : q.Bindable table settings) {u : Select (Slot × String)} {r : Registry}
    (hu : u.map Prod.fst = q.emit (.ofSettings table settings none))
    (hv : Visits Slot.settle (.ofSettings settings) u.slots r) (hnodup : r.parameters.names.Nodup)
    {gs : List (Fragment Entry)} (htranscript : Transcript settings.style r.parameters.toList u.slots gs)
    (hmem : ∀ n, n ∈ writtenNames gs ↔ n ∈ r.parameters.names) :
    ∃ l, ReadBack q table settings ⟨(u.map Prod.snd).frame.render, r.parameters⟩ l (writtenNames gs) := by
  have hbuilt : (Term.subquery u).Built (fun m n k => Woven (m.layout n) k) fun p => p.1.Takes fun _ _ _ => True := by
    refine Query.built_of_map (fun method receiver arguments hx => ?_) (fun _ _ _ => trivial) hu
    obtain ⟨e, he⟩ : ∃ e, Expr.callOf method receiver arguments = .ok e := h.regular _ hx
    exact woven_of_callOf he
  obtain ⟨l, hread⟩ := lex_statement hbuilt hnodup htranscript
  refine ⟨l, hread.lexed, ?_, hmem, hnodup, ?_⟩
  · rw [hread.markers, ← htranscript.reading.2]
    exact ((Select.slots_perm_of_built (fun _ _ _ hk => hk) hbuilt).flatMap_right _).map _
  · rw [hread.pieces, hu]
    refine Query.pieces_emit h.regular fun s hs => ?_
    rw [← hu, Select.slots_map] at hs
    obtain ⟨p, hp, rfl⟩ := List.mem_map.1 hs
    exact hv.accepted p hp

/-- In positional style every key is written once. -/
theorem compile_positional (h : q.Bindable table settings) (hstyle : settings.style = .positional) {cmd : Command}
    (hok : q.compile table settings = .ok cmd) : ∃ l, ReadBack q table settings cmd l cmd.parameters.names := by
  obtain ⟨u, r, hu, hv, rfl⟩ := Query.compile_eq_ok hok
  obtain ⟨hpos, gs, htranscript, hlist⟩ := h.positional_run (h.findable hstyle) hstyle hu hv
  have hwritten : writtenNames gs = r.parameters.names := by
    rw [Parameters.names, hlist, writtenNames]
  obtain ⟨l, hread⟩ := h.readBack hu hv hpos.nodup (hstyle ▸ htranscript) fun n => by rw [hwritten]
  exact ⟨l, hwritten ▸ hread⟩

/-- In named style a key is written once unless it is one of those that are
repeated. -/
theorem compile_named (h : q.Bindable table settings) (hstyle : settings.style = .named) {cmd : Command}
    (hok : q.compile table settings = .ok cmd) :
    ∃ l names, ReadBack q table settings cmd l names ∧ ∀ n ∉ q.repeatedNames, names.count n ≤ 1 := by
  obtain ⟨u, r, hu, hv, rfl⟩ := Query.compile_eq_ok hok
  obtain ⟨hnodup, gs, htranscript, hlist, hcount⟩ := h.named_run hstyle hu hv
  have hmem : ∀ n, n ∈ writtenNames gs ↔ n ∈ r.parameters.names := by
    refine fun n => ⟨fun hn => ?_, fun hn => ?_⟩
    · obtain ⟨e, he, rfl⟩ := List.mem_map.1 hn
      exact List.mem_map.2 ⟨e, htranscript.known he, rfl⟩
    · obtain ⟨e, he, rfl⟩ := List.mem_map.1 hn
      rw [hlist] at he
      rcases mem_of_mem_appendNew he with he | he
      · cases he
      · exact List.mem_map.2 ⟨e, he, rfl⟩
  obtain ⟨l, hread⟩ := h.readBack hu hv hnodup (hstyle ▸ htranscript) hmem
  exact ⟨l, _, hread, hcount⟩

end Bindable

theorem ParameterStyle.marker_injective (style : ParameterStyle) : Function.Injective style.marker :=
  fun _ _ h => (Marker.mk.inj h).2

/-- **Every value is bound where it occurs.** The command of a bindable query,
read back with the binding of each token in the token's place, is the query with
its values in it. The tokens are those of the keys. A key has a single token, and
the tokens are a permutation of the keys, apart from the filters in a test that
guards several arms, which named style writes once for each arm. -/
theorem compile_places_values {q : Query} {table : Table} {settings : Settings} (h : q.Bindable table settings)
    {cmd : Command} (hok : q.compile table settings = .ok cmd) :
    ∃ l, lex cmd.text = some l ∧
      (∀ m, m ∈ markers l ↔ m ∈ cmd.parameters.names.map settings.style.marker) ∧
      (∀ n ∈ cmd.parameters.names, settings.style = .positional ∨ n ∉ q.repeatedNames →
        (markers l).count (settings.style.marker n) = 1) ∧
      (settings.style = .positional ∨ q.repeatedNames = [] →
        (markers l).Perm (cmd.parameters.names.map settings.style.marker)) ∧
      l.flatMap (Lexeme.place settings.style.sigil cmd.parameters) = q.inline (.ofSettings table settings none) := by
  obtain ⟨l, names, hread, hcount⟩ : ∃ l names, ReadBack q table settings cmd l names ∧
      ∀ n, settings.style = .positional ∨ n ∉ q.repeatedNames → names.count n ≤ 1 := by
    cases hstyle : settings.style with
    | positional =>
      obtain ⟨l, hread⟩ := compile_positional h hstyle hok
      exact ⟨l, _, hread, fun n _ => List.nodup_iff_count_le_one.1 hread.nodup n⟩
    | named =>
      obtain ⟨l, names, hread, hcount⟩ := compile_named h hstyle hok
      exact ⟨l, names, hread, fun n hn => hcount n (hn.resolve_left (by simp))⟩
  refine ⟨l, hread.lexed, fun m => ?_, fun n hn hfree => ?_, fun hfree => ?_, hread.pieces⟩
  · rw [hread.markers.mem_iff, List.mem_map, List.mem_map]
    simp only [hread.mem_names]
  · rw [hread.markers.count_eq, List.count_map_of_injective _ _ settings.style.marker_injective]
    exact le_antisymm (hcount n hfree) (List.count_pos_iff.2 ((hread.mem_names n).2 hn))
  · have hnames : names.Perm cmd.parameters.names := by
      refine (List.perm_ext_iff_of_nodup (List.nodup_iff_count_le_one.2 fun n => hcount n ?_) hread.nodup).2
        hread.mem_names
      exact hfree.imp_right fun hnone => by simp [hnone]
    exact hread.markers.trans (hnames.map _)

theorem nestedGuard_bindable : nestedGuard.Bindable { name := "t" } {} where
  toNameable := nestedGuard_nameable
  calls := by
    intro method receiver arguments h
    simp [nestedGuard, Query.subterms, Source.subterms, optionSubterms, joinSubterms, listSubterms, sortSubterms,
      Expr.subterms] at h
  findable h := by cases h

set_option maxRecDepth 10000 in
theorem nestedGuard_count :
    ((nestedGuard.compile { name := "t" } {}).toOption.bind fun cmd => lex cmd.text).map
      (fun l => (markers l).count (ParameterStyle.named.marker "eq_00000000000000000000000000000000")) = some 2 := by
  decide +kernel

theorem nestedGuard_compiles :
    ∃ cmd l, nestedGuard.compile { name := "t" } {} = .ok cmd ∧ lex cmd.text = some l ∧
      (markers l).count (ParameterStyle.named.marker "eq_00000000000000000000000000000000") = 2 := by
  have hcount := nestedGuard_count
  cases hc : nestedGuard.compile { name := "t" } {} with
  | error e =>
    rw [hc] at hcount
    cases hcount
  | ok cmd =>
    rw [hc] at hcount
    obtain ⟨l, hl, htwo⟩ := Option.map_eq_some_iff.1 hcount
    exact ⟨cmd, l, rfl, hl, htwo⟩

/-- The test of the outer conditional guards two arms, so its filter's token is
written twice: the tokens are no permutation of the keys. -/
theorem nestedGuard_repeats_token :
    nestedGuard.Bindable { name := "t" } {} ∧
      ∃ cmd l, nestedGuard.compile { name := "t" } {} = .ok cmd ∧ lex cmd.text = some l ∧
        ¬(markers l).Perm (cmd.parameters.names.map ParameterStyle.named.marker) := by
  obtain ⟨cmd, l, hc, hl, htwo⟩ := nestedGuard_compiles
  refine ⟨nestedGuard_bindable, cmd, l, hc, hl, fun hperm => ?_⟩
  -- a key stands once among the keys
  obtain ⟨l', names, hread, -⟩ := compile_named nestedGuard_bindable rfl hc
  have hkeys : (cmd.parameters.names.map ParameterStyle.named.marker).Nodup :=
    hread.nodup.map ParameterStyle.named.marker_injective
  have hone := List.nodup_iff_count_le_one.1 hkeys
    (ParameterStyle.named.marker "eq_00000000000000000000000000000000")
  rw [← hperm.count_eq, htwo] at hone
  omega

/-- The values of the query stand in their places nevertheless, each arm's
filter among them. -/
theorem nestedGuard_placed :
    nestedGuard.Bindable { name := "t" } {} ∧
      ∃ cmd l, nestedGuard.compile { name := "t" } {} = .ok cmd ∧ lex cmd.text = some l ∧
        (∀ m, m ∈ markers l ↔ m ∈ cmd.parameters.names.map ParameterStyle.named.marker) ∧
        l.flatMap (Lexeme.place '@' cmd.parameters) = nestedGuard.inline { table := { name := "t" } } := by
  obtain ⟨cmd, -, hc, -, -⟩ := nestedGuard_compiles
  obtain ⟨l, hlex, htokens, -, -, hpieces⟩ := compile_places_values nestedGuard_bindable hc
  exact ⟨nestedGuard_bindable, cmd, l, hc, hlex, htokens, hpieces⟩

end ParamQuery
