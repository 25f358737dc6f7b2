/-
Whole runs over the slots of a statement. A run in named style
(`Visits.named`) or in positional style (`Visits.positional`) settles every slot
to a text that reads as entries of the final registry, and says which entries
that registry holds and how often each name was written.

A legible fragment whose slots were settled so is read back with every value in
its place (`lex_settled`).
-/
import ParamQuery.Proofs.Settling
import Mathlib

namespace ParamQuery

open Sql

/-! ## Runs -/

/-- The names of a filter in a slot. -/
def Slot.filterNames : Slot → List String
  | .filter c => c.parameters.names
  | _ => []

/-- What has been written when the slots of `l` are settled, one fragment of
entries for each slot. -/
abbrev Transcript (style : ParameterStyle) (known : List Entry) (l : List (Slot × String))
    (gs : List (Fragment Entry)) : Prop := List.Forall₂ (Reads style known) l gs

theorem Transcript.known {style : ParameterStyle} {known : List Entry} {l : List (Slot × String)}
    {gs : List (Fragment Entry)} (h : Transcript style known l gs) : gs.flatMap Fragment.slots ⊆ known := by
  induction h with
  | nil => simp
  | cons hr _ ih =>
    rw [List.flatMap_cons]
    exact List.append_subset.2 ⟨hr.known, ih⟩

/-- The names in a transcript. -/
def writtenNames (gs : List (Fragment Entry)) : List String := (gs.flatMap Fragment.slots).map (·.1)

theorem writtenNames_cons (g : Fragment Entry) (gs : List (Fragment Entry)) :
    writtenNames (g :: gs) = g.slots.map (·.1) ++ writtenNames gs := by
  simp [writtenNames]

/-- **A run in positional style** writes each number once, in order. -/
theorem Visits.positional {r r' : Registry} {l : List (Slot × String)} (hv : Visits Slot.settle r l r')
    (h : r.Positional) (hslots : ∀ p ∈ l, p.1.Takes Filter.Separable) :
    r'.Positional ∧ ∃ gs, Transcript .positional r'.parameters.toList l gs ∧
      r'.parameters.toList = r.parameters.toList ++ gs.flatMap Fragment.slots := by
  induction hv with
  | nil => exact ⟨h, [], .nil, by simp⟩
  | @cons slot text l r r₁ r₂ hb _ ih =>
    obtain ⟨hpos, hlist, g, hreads, hg⟩ := h.settle (hslots (slot, text) (by simp)) hb
    obtain ⟨hpos', gs, htranscript, hlist'⟩ := ih hpos fun p hp => hslots p (by simp [hp])
    refine ⟨hpos', g :: gs, .cons (hreads.mono ?_) htranscript, ?_⟩
    · rw [hlist']
      exact List.subset_append_left _ _
    · rw [hlist', hlist, List.flatMap_cons, List.append_assoc, hg]

/-- The names that a slot asks for in named style. A name that the registry
makes is asked for once, and never if it is there already; any other name is
asked for as often as the slot's filter has it. -/
theorem Registry.Named.count_entries {stem : String} {dictionary : List Entry} (hd : Dictionary stem dictionary)
    {r : Registry} (h : r.Named stem dictionary) {slot : Slot}
    (hslot : slot.Takes fun f table qualifier => f.Readable ∧ f.bindings table qualifier ⊆ dictionary) :
    (∀ k : Nat, ((slot.entries r).map (·.1)).count (stem ++ toString k) ≤ 1 ∧
      (stem ++ toString k ∈ r.parameters.names → ((slot.entries r).map (·.1)).count (stem ++ toString k) = 0)) ∧
      ∀ n, (∀ k : Nat, n ≠ stem ++ toString k) → ((slot.entries r).map (·.1)).count n = slot.filterNames.count n := by
  cases slot with
  | value v asText =>
    obtain ⟨hname, hfresh, -, -⟩ := h.add hd (boundAs v asText)
    have hnames : ((Slot.value v asText).entries r).map (·.1) = [r.nextName] := rfl
    rw [hnames]
    refine ⟨fun k => ⟨List.count_le_length, fun hmem => List.count_eq_zero.2 fun hk => ?_⟩, fun n hn => ?_⟩
    · exact hfresh (List.mem_singleton.1 hk ▸ hmem)
    · rw [hname]
      simpa [Slot.filterNames, List.count_eq_zero] using hn r.counter
  | filter c =>
    obtain ⟨f, table, qualifier, rfl, hread, hsubset⟩ := hslot
    have hentries : (Slot.filter (f.command table qualifier)).entries r = f.bindings table qualifier := by
      simp only [Slot.entries, h.style, Filter.parameters_command table qualifier hread.nodup]
    have hzero : ∀ k : Nat, ((f.bindings table qualifier).map (·.1)).count (stem ++ toString k) = 0 := by
      refine fun k => List.count_eq_zero.2 fun hmem => ?_
      obtain ⟨e, he, heq⟩ := List.mem_map.1 hmem
      exact hd.reserved e (hsubset he) k heq
    rw [hentries]
    refine ⟨fun k => ⟨by rw [hzero k]; omega, fun _ => hzero k⟩, fun n _ => ?_⟩
    rw [Slot.filterNames, Filter.names_command table qualifier hread.nodup, Filter.bindings_names]
  | reject e => simp [Slot.entries, Slot.filterNames]

/-- **A run in named style** leaves the entries that it writes, each name once.
A name that the registry made is written once, and the name of a filter as
often as the filter is settled. -/
theorem Visits.named {stem : String} {dictionary : List Entry} (hd : Dictionary stem dictionary)
    (hstem : IsIdentifier stem) {r r' : Registry} {l : List (Slot × String)} (hv : Visits Slot.settle r l r')
    (h : r.Named stem dictionary)
    (hslots : ∀ p ∈ l, p.1.Takes fun f table qualifier => f.Readable ∧ f.bindings table qualifier ⊆ dictionary) :
    r'.Named stem dictionary ∧ ∃ gs, Transcript .named r'.parameters.toList l gs ∧
      r'.parameters.toList = appendNew r.parameters.toList (gs.flatMap Fragment.slots) ∧
      (∀ k : Nat, (writtenNames gs).count (stem ++ toString k) ≤ 1 ∧
        (stem ++ toString k ∈ r.parameters.names → (writtenNames gs).count (stem ++ toString k) = 0)) ∧
      ∀ n, (∀ k : Nat, n ≠ stem ++ toString k) →
        (writtenNames gs).count n = (l.flatMap fun p => p.1.filterNames).count n := by
  induction hv with
  | nil => exact ⟨h, [], .nil, rfl, by simp [writtenNames], by simp [writtenNames]⟩
  | @cons slot text l r r₁ r₂ hb _ ih =>
    have hslot := hslots _ (by simp : (slot, text) ∈ (slot, text) :: l)
    obtain ⟨hnamed, hlist, g, hreads, hg⟩ := h.settle hd hstem hslot hb
    obtain ⟨hown, hother⟩ := h.count_entries hd hslot
    obtain ⟨hnamed', gs, htranscript, hlist', hmade, hfilters⟩ :=
      ih hnamed fun p hp => hslots p (by simp [hp])
    have hsub : r₁.parameters.toList ⊆ r₂.parameters.toList := hlist' ▸ subset_appendNew _ _
    refine ⟨hnamed', g :: gs, .cons (hreads.mono hsub) htranscript, ?_, fun k => ?_, fun n hn => ?_⟩
    · rw [hlist', hlist, List.flatMap_cons, appendNew_append, hg]
    · rw [writtenNames_cons, List.count_append, hg]
      by_cases hzero : ((slot.entries r).map (·.1)).count (stem ++ toString k) = 0
      · rw [hzero, Nat.zero_add]
        refine ⟨(hmade k).1, fun hmem => (hmade k).2 ?_⟩
        obtain ⟨e, he, heq⟩ := List.mem_map.1 hmem
        exact List.mem_map.2 ⟨e, hlist ▸ subset_appendNew _ _ he, heq⟩
      · -- the slot makes the name, which is then there for the slots behind
        have hmem : stem ++ toString k ∈ r₁.parameters.names := by
          obtain ⟨e, he, heq⟩ := List.mem_map.1 (List.count_pos_iff.1 (Nat.pos_of_ne_zero hzero))
          rw [Parameters.names, hlist, ← heq]
          exact mem_names_appendNew he
        rw [(hmade k).2 hmem, Nat.add_zero]
        exact hown k
    · rw [writtenNames_cons, List.count_append, List.flatMap_cons, List.count_append, hfilters n hn, hg, hother n hn]

/-! ## Whole fragments -/

/-- The names in a text. -/
def namesIn (s : String) : List String := (markers ((lex s).getD [])).map (·.name)

/-- Reading the text of a fragment of entries. -/
theorem lex_entries {style : ParameterStyle} {g : Fragment Entry} (hg : g.Legible)
    (hvalid : ∀ e ∈ g.slots, (style.marker e.1).Valid) :
    lex (Fragment.render (g.map (Token.map fun e => (style.marker e.1).text))) =
      some (Fragment.lexemes (g.map (Token.map fun e => style.marker e.1))) := by
  have hmap : g.map (Token.map fun e : Entry => (style.marker e.1).text) =
      (g.map (Token.map fun e => style.marker e.1)).map (Token.map Marker.text) := by
    rw [List.map_map]
    refine List.map_congr_left fun t _ => ?_
    cases t <;> rfl
  rw [hmap]
  refine lex_render_of_legible (hg.map _) fun m hm => ?_
  rw [Fragment.slots_map] at hm
  obtain ⟨e, he, rfl⟩ := List.mem_map.1 hm
  exact hvalid e he

theorem Reads.namesIn_eq {style : ParameterStyle} {known : List Entry} {p : Slot × String} {g : Fragment Entry}
    (h : Reads style known p g) : namesIn p.2 = g.slots.map (·.1) := by
  rw [namesIn, h.text, lex_entries h.legible h.valid, Option.getD_some, markers_of_legible (h.legible.map _),
    Fragment.slots_map, List.map_map]
  rfl

/-- A transcript read slot by slot. -/
theorem Transcript.reading {style : ParameterStyle} {known : List Entry} {l : List (Slot × String)}
    {gs : List (Fragment Entry)} (h : Transcript style known l gs) :
    (∀ p ∈ l, ∃ g, Reads style known p g) ∧ (l.flatMap fun p => namesIn p.2) = writtenNames gs := by
  induction h with
  | nil => exact ⟨by simp, rfl⟩
  | cons hr _ ih =>
    refine ⟨fun p hp => ?_, ?_⟩
    · rcases List.mem_cons.1 hp with rfl | hp
      · exact ⟨_, hr⟩
      · exact ih.1 p hp
    · rw [List.flatMap_cons, writtenNames_cons, hr.namesIn_eq, ih.2]

/-- **A settled fragment is read back with every value in its place.** Its
parameters are those in the texts of its slots. -/
theorem lex_settled {style : ParameterStyle} {ps : Parameters} (hnodup : ps.names.Nodup)
    {f : Fragment (Slot × String)} (hf : f.Legible) (hreads : ∀ p ∈ f.slots, ∃ g, Reads style ps.toList p g) :
    ∃ l, lex (Fragment.render (f.map (Token.map Prod.snd))) = some l ∧
      markers l = (f.slots.flatMap fun p => namesIn p.2).map style.marker ∧
      l.map (Lexeme.bound style.sigil ps) = f.symbols fun p => p.1.symbols := by
  choose! g hg using hreads
  have hlegible : (f.splice g).Legible := hf.splice fun p hp => (hg p hp).legible
  have hslots : (f.splice g).slots = f.slots.flatMap fun p => (g p).slots := Fragment.slots_splice g f
  have hentry : ∀ e ∈ (f.splice g).slots, (style.marker e.1).Valid ∧ e ∈ ps.toList := by
    intro e he
    rw [hslots] at he
    obtain ⟨p, hp, he⟩ := List.mem_flatMap.1 he
    exact ⟨(hg p hp).valid e he, (hg p hp).known e he⟩
  -- the text is that of the entries
  have htext : Fragment.render (f.map (Token.map Prod.snd)) =
      Fragment.render ((f.splice g).map (Token.map fun e => (style.marker e.1).text)) := by
    rw [Fragment.map_splice, Fragment.render_splice fun p hp => ((hg p hp).text).symm]
  refine ⟨_, htext ▸ lex_entries hlegible fun e he => (hentry e he).1, ?_, ?_⟩
  · rw [markers_of_legible (hlegible.map _), Fragment.slots_map, hslots, List.map_flatMap, List.map_flatMap]
    refine List.flatMap_congr fun p hp => ?_
    rw [(hg p hp).namesIn_eq, List.map_map]
    rfl
  · rw [symbols_of_legible (hlegible.map _), Fragment.symbols_map]
    have hbound : ∀ e ∈ (f.splice g).slots,
        [(Lexeme.parameter (style.marker e.1).sigil (style.marker e.1).name).bound style.sigil ps] =
          [Symbol.value e.2] := by
      intro e he
      simp only [Lexeme.bound, ParameterStyle.marker, if_true, get?_of_mem hnodup (hentry e he).2]
    rw [Fragment.symbols_congr hbound, Fragment.symbols_splice]
    exact Fragment.symbols_congr fun p hp => (hg p hp).symbols

end ParamQuery
