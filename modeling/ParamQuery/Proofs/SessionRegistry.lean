/-
The registry over a whole session. What a session registers is a list of
events, values bound and commands absorbed, that can be read off its moves
without running them (`Move.events`, `Session.moveAll_after`); a move that is
refused registers what stands before the refusal.

`Session.registry_kept` says what the parameters are after any moves. In
positional style they are numbered from one without gaps. In named style the
names are apart and those made by the registry are numbered from zero without
gaps, as long as no absorbed name has two bindings or is one that the registry
makes. In both styles a move only appends.
-/
import ParamQuery.Proofs.OpenStatements
import ParamQuery.Proofs.QueryRuns

namespace ParamQuery

open Sql

/-! ## Events -/

/-- What a registry is given. -/
inductive Event where
  | bound (b : Binding)
  | absorbed (c : Command)

namespace Event

/-- The values that the registry makes a name for, in either style. -/
def values : Event → List Binding
  | .bound b => [b]
  | .absorbed _ => []

/-- The entries that come with names of their own. -/
def entries : Event → List Entry
  | .bound _ => []
  | .absorbed c => c.parameters.toList

/-- The values that an event brings. -/
def bindings : Event → List Binding
  | .bound b => [b]
  | .absorbed c => c.parameters.toList.map (·.2)

end Event

/-- The registry behind an event. -/
def Registry.take (r : Registry) : Event → Registry
  | .bound b => (r.add b).2
  | .absorbed c => (r.absorb c).2

/-- The registry behind some events. -/
def Registry.takeAll (r : Registry) (events : List Event) : Registry := events.foldl Registry.take r

theorem Registry.takeAll_append (r : Registry) (events events' : List Event) :
    r.takeAll (events ++ events') = (r.takeAll events).takeAll events' := List.foldl_append

/-- What slots give the registry, up to the first one that refuses. -/
def slotEvents : List Slot → List Event
  | [] => []
  | .value v asText :: rest => .bound (boundAs v asText) :: slotEvents rest
  | .filter c :: rest => .absorbed c :: slotEvents rest
  | .reject _ :: _ => []

theorem Slot.settle_takeAll {slot : Slot} {text : String} {r r' : Registry}
    (h : slot.settle.runOn r = (.ok text, r')) (rest : List Slot) :
    r.takeAll (slotEvents (slot :: rest)) = r'.takeAll (slotEvents rest) := by
  cases slot with
  | value v asText =>
    rw [Slot.settle_value] at h
    rw [← (Prod.mk.inj h).2]
    rfl
  | filter c =>
    rw [Slot.settle_filter] at h
    rw [← (Prod.mk.inj h).2]
    rfl
  | reject e =>
    rw [Slot.settle_reject] at h
    cases h

theorem Visits.takeAll {r r' : Registry} {l : List (Slot × String)} (h : Visits Slot.settle r l r') :
    r' = r.takeAll (slotEvents (l.map Prod.fst)) := by
  induction h with
  | nil => rfl
  | cons hb _ ih => rw [List.map_cons, Slot.settle_takeAll hb, ← ih]

theorem Refuses.takeAll {r r' : Registry} {l : List Slot} {e : CompileError} (h : Refuses Slot.settle r l e r') :
    r' = r.takeAll (slotEvents l) := by
  induction h with
  | @here b l e r r₁ hb =>
    cases b with
    | reject e' =>
      rw [Slot.settle_reject] at hb
      exact (Prod.mk.inj hb).2.symm
    | value v asText =>
      rw [Slot.settle_value] at hb
      cases hb
    | filter c =>
      rw [Slot.settle_filter] at hb
      cases hb
  | later hb _ ih => rw [Slot.settle_takeAll hb, ← ih]

/-- A walk over slots gives the registry their events, whatever its outcome. -/
theorem Walks.takeAll {α : Type} {S : List Slot} {x : Naming α} {Q : List (Slot × String) → α → Prop}
    (h : Walks Slot.settle S x Q) (r : Registry) : (x.runOn r).2 = r.takeAll (slotEvents S) := by
  rcases h r with ⟨l, a, r', hrun, rfl, hv, -⟩ | ⟨e, r', hrun, he⟩
  · rw [hrun, ← hv.takeAll]
  · rw [hrun, ← he.takeAll]

/-! ## Moves -/

/-- What can happen next in a session. Statements may be opened and closed in
any order; `depth` is the one that a statement is closed from. -/
inductive Move where
  | step (st : Step)
  | openStatement
  | closeStatement (depth : Nat)

/-- The session behind a move. -/
def Session.move (s : Session) : Move → Session
  | .step st => s.perform st
  | .openStatement => s.openStatement.2
  | .closeStatement depth => s.dropStatement depth

/-- The session behind some moves. -/
def Session.moveAll (s : Session) (moves : List Move) : Session := moves.foldl Session.move s

section Events

variable (table : Table) (settings : Settings)

mutual
/-- The events of a step, in order. -/
def Step.events : Step → List Event
  | .expression qualifier e => slotEvents (e.emit (.ofSettings table settings qualifier) {} false).term.slots
  | .query q => slotEvents (q.emit (.ofSettings table settings none)).slots
  | .bind b => [.bound b]
  | .absorb c => [.absorbed c]
  | .statement steps => stepEvents steps
/-- The events of some steps, in order. -/
def stepEvents : List Step → List Event
  | [] => []
  | step :: rest => step.events ++ stepEvents rest
end

/-- What a move gives the registry. -/
def Move.events : Move → List Event
  | .step st => st.events table settings
  | .openStatement | .closeStatement _ => []

end Events

/-- The session `s'` is `s` after some events: only the registry and the stack
may differ. -/
structure Session.After (s : Session) (events : List Event) (s' : Session) : Prop where
  table : s'.table = s.table
  settings : s'.settings = s.settings
  registry : s'.registry = s.registry.takeAll events

namespace Session

theorem After.refl (s : Session) : s.After [] s := ⟨rfl, rfl, rfl⟩

theorem After.trans {s s₁ s₂ : Session} {events events₁ : List Event} (h : s.After events s₁)
    (h₁ : s₁.After events₁ s₂) : s.After (events ++ events₁) s₂ where
  table := h₁.table.trans h.table
  settings := h₁.settings.trans h.settings
  registry := by rw [h₁.registry, h.registry, Registry.takeAll_append]

theorem expression_after (s : Session) (qualifier : Option String) (e : Expr) :
    s.After ((Step.expression qualifier e).events s.table s.settings) (s.expression qualifier e).2 := by
  have hwalk := (Term.mapM_walks Slot.settle
    (e.emit (.ofSettings s.table s.settings qualifier) {} false).term).map
    (g := Term.render) (R := fun _ _ => True) (fun _ _ _ => trivial)
  rw [expression_eq]
  exact ⟨rfl, rfl, hwalk.takeAll s.registry⟩

theorem query_after (s : Session) (q : Query) :
    s.After ((Step.query q).events s.table s.settings) (s.query q).2 := by
  have hwalk := (Select.mapM_walks Slot.settle (q.emit (.ofSettings s.table s.settings none))).map
    (g := Select.frame) (R := fun _ _ => True) (fun _ _ _ => trivial)
  have hregistry : (s.settledQuery q).2 = _ := hwalk.takeAll s.registry
  have hcases := s.query_cases q
  rcases hq : s.settledQuery q with ⟨e | f, r⟩ <;> rcases hs : s.frames with _ | ⟨top, below⟩ <;>
    simp only [hq, hs] at hcases hregistry
  · rw [hcases]
    exact ⟨rfl, rfl, hregistry⟩
  · rw [hcases]
    exact ⟨rfl, rfl, hregistry⟩
  · rw [hcases]
    exact ⟨rfl, rfl, hregistry⟩
  · obtain ⟨frame, hquery, -⟩ := hcases
    rw [hquery]
    exact ⟨rfl, rfl, hregistry⟩

mutual
theorem perform_after (s : Session) : ∀ step, s.After (step.events s.table s.settings) (s.perform step)
  | .expression qualifier e => s.expression_after qualifier e
  | .query q => s.query_after q
  | .bind b => ⟨rfl, rfl, rfl⟩
  | .absorb c => ⟨rfl, rfl, rfl⟩
  | .statement steps => by
    have h := performAll_after s.openStatement.2 steps
    exact ⟨h.table, h.settings, h.registry⟩
theorem performAll_after (s : Session) :
    ∀ steps, s.After (stepEvents s.table s.settings steps) (s.performAll steps)
  | [] => .refl s
  | step :: rest => by
    have hstep := s.perform_after step
    have hrest := performAll_after (s.perform step) rest
    rw [hstep.table, hstep.settings] at hrest
    exact hstep.trans hrest
end

theorem move_after (s : Session) (m : Move) : s.After (m.events s.table s.settings) (s.move m) := by
  cases m with
  | step st => exact s.perform_after st
  | openStatement => exact ⟨rfl, rfl, rfl⟩
  | closeStatement depth => exact ⟨rfl, rfl, rfl⟩

/-- A session gives the registry the events of its moves, one after another. -/
theorem moveAll_after (s : Session) (moves : List Move) :
    s.After (moves.flatMap (Move.events s.table s.settings)) (s.moveAll moves) := by
  induction moves generalizing s with
  | nil => exact .refl s
  | cons m moves ih =>
    have hm := s.move_after m
    have hrest := ih (s.move m)
    rw [hm.table, hm.settings] at hrest
    exact hm.trans hrest

end Session

/-! ## Positional style -/

/-- The registry holds the given bindings under their numbers. -/
structure Registry.Counted (r : Registry) (bs : List Binding) : Prop extends r.Positional where
  bindings : r.parameters.toList.map (·.2) = bs

theorem map_snd_numberFrom (k : Nat) (es : List Entry) : (numberFrom k es).map (·.2) = es.map (·.2) := by
  induction es generalizing k with
  | nil => rfl
  | cons e es ih => rw [numberFrom, List.map_cons, List.map_cons, ih]

theorem Registry.Counted.take {r : Registry} {bs : List Binding} (h : r.Counted bs) (event : Event) :
    (r.take event).Counted (bs ++ event.bindings) ∧
      r.parameters.toList <+: (r.take event).parameters.toList := by
  cases event with
  | bound b =>
    obtain ⟨-, hlist, hpos⟩ := h.toPositional.add b
    refine ⟨⟨hpos, ?_⟩, _, hlist.symm⟩
    rw [Registry.take, hlist, List.map_append, h.bindings]
    rfl
  | absorbed c =>
    obtain ⟨r', hfold, hpos, hlist⟩ := h.toPositional.absorb_fold c.parameters.toList c.text
    have htake : r.take (.absorbed c) = r' := congrArg Prod.snd hfold
    rw [htake]
    refine ⟨⟨hpos, ?_⟩, _, hlist.symm⟩
    rw [hlist, List.map_append, h.bindings, map_snd_numberFrom]
    rfl

theorem Registry.Counted.takeAll {r : Registry} {bs : List Binding} (h : r.Counted bs) (events : List Event) :
    (r.takeAll events).Counted (bs ++ events.flatMap Event.bindings) ∧
      r.parameters.toList <+: (r.takeAll events).parameters.toList := by
  induction events generalizing r bs with
  | nil =>
    rw [List.flatMap_nil, List.append_nil]
    exact ⟨h, List.prefix_refl _⟩
  | cons event events ih =>
    obtain ⟨hevent, happend⟩ := h.take event
    obtain ⟨hrest, happends⟩ := ih hevent
    rw [List.flatMap_cons, ← List.append_assoc]
    exact ⟨hrest, happend.trans happends⟩

/-! ## Named style -/

/-- The registry holds the given values under the names it made, in order, and
beside them only entries of the dictionary. -/
structure Registry.Labelled (stem : String) (dictionary : List Entry) (r : Registry) (bs : List Binding) : Prop
    extends r.Named stem dictionary where
  counter : r.counter = bs.length
  made : (r.parameters.toList.filter fun e => e.1 ∉ dictionary.map (·.1)) =
    bs.mapIdx fun i b => (stem ++ toString i, b)

theorem exists_appendNew_eq (acc es : List Entry) : ∃ new, appendNew acc es = acc ++ new ∧ new ⊆ es := by
  induction es generalizing acc with
  | nil => exact ⟨[], by simp [appendNew], List.Subset.refl _⟩
  | cons e es ih =>
    by_cases hmem : e.1 ∈ acc.map (·.1)
    · obtain ⟨new, hnew, hsub⟩ := ih acc
      exact ⟨new, by rw [appendNew, if_pos hmem, hnew], List.subset_cons_of_subset _ hsub⟩
    · obtain ⟨new, hnew, hsub⟩ := ih (acc ++ [e])
      refine ⟨e :: new, by rw [appendNew, if_neg hmem, hnew, List.append_assoc]; rfl, ?_⟩
      exact List.cons_subset_cons _ hsub

/-- The bindings set one after another, from the given ones on. -/
def Parameters.insertAll (ps : Parameters) (es : List Entry) : Parameters :=
  es.foldl (fun ps e => ps.insert e.1 e.2) ps

/-- In named style a command keeps its text and its names. -/
theorem Registry.absorb_named {r : Registry} (h : r.style = .named) (c : Command) :
    r.absorb c = (c.text, { r with parameters := r.parameters.insertAll c.parameters.toList }) := by
  unfold Registry.absorb
  induction c.parameters.toList generalizing r with
  | nil => rfl
  | cons e es ih =>
    have hstep : Registry.absorbBinding (c.text, r) e =
        (c.text, { r with parameters := r.parameters.insert e.1 e.2 }) := by
      simp [Registry.absorbBinding, h]
    rw [List.foldl_cons, hstep]
    exact ih h

section Labelled

variable {stem : String} {dictionary : List Entry} (hd : Dictionary stem dictionary)

include hd

theorem Registry.Labelled.take {r : Registry} {bs : List Binding} (h : r.Labelled stem dictionary bs)
    {event : Event} (hsub : event.entries ⊆ dictionary) :
    (r.take event).Labelled stem dictionary (bs ++ event.values) ∧
      r.parameters.toList <+: (r.take event).parameters.toList ∧
      event.entries ⊆ (r.take event).parameters.toList := by
  cases event with
  | bound b =>
    obtain ⟨hname, -, hlist, hnamed⟩ := h.toNamed.add hd b
    have hother : r.nextName ∉ dictionary.map (·.1) := by
      rintro hmem
      obtain ⟨e, he, heq⟩ := List.mem_map.1 hmem
      exact hd.reserved e he r.counter (heq.trans hname)
    refine ⟨⟨hnamed, ?_, ?_⟩, ⟨_, hlist.symm⟩, List.nil_subset _⟩
    · rw [Event.values, List.length_append, ← h.counter]
      rfl
    · rw [Registry.take, hlist, List.filter_append, h.made, Event.values, List.mapIdx_concat, ← h.counter, ← hname]
      simp [hother]
  | absorbed c =>
    have hsub : c.parameters.toList ⊆ dictionary := hsub
    obtain ⟨r', hfold, hnamed, hlist⟩ := h.toNamed.absorb_fold hd hsub c.text
    have htake : r.take (.absorbed c) = r' := congrArg Prod.snd hfold
    have hcounter : r'.counter = r.counter := by
      have habsorb := Registry.absorb_named h.style c
      rw [Registry.absorb, hfold] at habsorb
      rw [(Prod.mk.inj habsorb).2]
    obtain ⟨new, hnew, hnewsub⟩ := exists_appendNew_eq r.parameters.toList c.parameters.toList
    rw [htake, Event.values, List.append_nil]
    refine ⟨⟨hnamed, hcounter.trans h.counter, ?_⟩, ⟨new, by rw [hlist, hnew]⟩, fun e he => ?_⟩
    · -- what is new comes from the dictionary
      have hnone : (new.filter fun e => e.1 ∉ dictionary.map (·.1)) = [] := by
        rw [List.filter_eq_nil_iff]
        intro e he
        simpa using ⟨e.2, hsub (hnewsub he)⟩
      rw [hlist, hnew, List.filter_append, hnone, List.append_nil, h.made]
    · refine hnamed.mem_of_name hd (hsub he) ?_
      rw [Parameters.names, hlist]
      exact mem_names_appendNew he

theorem Registry.Labelled.takeAll {r : Registry} {bs : List Binding} (h : r.Labelled stem dictionary bs)
    {events : List Event} (hsub : events.flatMap Event.entries ⊆ dictionary) :
    (r.takeAll events).Labelled stem dictionary (bs ++ events.flatMap Event.values) ∧
      r.parameters.toList <+: (r.takeAll events).parameters.toList ∧
      events.flatMap Event.entries ⊆ (r.takeAll events).parameters.toList := by
  induction events generalizing r bs with
  | nil =>
    rw [List.flatMap_nil, List.append_nil]
    exact ⟨h, List.prefix_refl _, List.nil_subset _⟩
  | cons event events ih =>
    rw [List.flatMap_cons, List.append_subset] at hsub
    obtain ⟨hevent, happend, hmem⟩ := h.take hd hsub.1
    obtain ⟨hrest, happends, hmems⟩ := ih hevent hsub.2
    rw [List.flatMap_cons, List.flatMap_cons, ← List.append_assoc]
    exact ⟨hrest, happend.trans happends, List.append_subset.2 ⟨List.Subset.trans hmem happends.subset, hmems⟩⟩

end Labelled

/-! ## Whole sessions -/

namespace Session

/-- The parameters of a session after some moves from its start. -/
def parametersAfter (table : Table) (settings : Settings) (moves : List Move) : Parameters :=
  ((start table settings).moveAll moves).registry.parameters

theorem parametersAfter_eq (table : Table) (settings : Settings) (moves : List Move) :
    parametersAfter table settings moves =
      ((Registry.ofSettings settings).takeAll (moves.flatMap (Move.events table settings))).parameters :=
  congrArg Registry.parameters ((start table settings).moveAll_after moves).registry

/-- **The registry over a session.** After any moves, each of which may have
been refused, in positional style the bindings are there in order under the
numbers from one on. In named style the names are apart, the values that the
registry named are there in order under the stem and the numbers from zero on,
and every absorbed entry is there. In both styles moves only append. -/
theorem registry_kept {table : Table} {settings : Settings} {moves : List Move}
    (h : settings.style = .named →
      Dictionary settings.stem ((moves.flatMap (Move.events table settings)).flatMap Event.entries)) :
    let events := moves.flatMap (Move.events table settings)
    let ps := parametersAfter table settings moves
    (match settings.style with
      | .positional =>
        ps.names = ((List.range (events.flatMap Event.bindings).length).map fun i => toString (i + 1)) ∧
          ps.toList.map (·.2) = events.flatMap Event.bindings
      | .named =>
        ps.names.Nodup ∧
          (ps.toList.filter fun e => e.1 ∉ (events.flatMap Event.entries).map (·.1)) =
            (events.flatMap Event.values).mapIdx (fun i b => (settings.stem ++ toString i, b)) ∧
          events.flatMap Event.entries ⊆ ps.toList) ∧
      ∀ before between after, moves = before ++ between ++ after →
        (parametersAfter table settings before).toList <+:
          (parametersAfter table settings (before ++ between)).toList := by
  intro events ps
  have hsplit (before between : List Move) : (parametersAfter table settings (before ++ between)) =
      (((Registry.ofSettings settings).takeAll (before.flatMap (Move.events table settings))).takeAll
        (between.flatMap (Move.events table settings))).parameters := by
    rw [parametersAfter_eq, List.flatMap_append, Registry.takeAll_append]
  cases hstyle : settings.style with
  | positional =>
    have hstart : (Registry.ofSettings settings).Counted [] := ⟨Registry.positional_ofSettings hstyle, rfl⟩
    refine ⟨?_, fun before between after _ => ?_⟩
    · obtain ⟨hall, -⟩ := hstart.takeAll events
      have hps : ps = ((Registry.ofSettings settings).takeAll events).parameters := parametersAfter_eq ..
      rw [hps]
      refine ⟨?_, hall.bindings⟩
      rw [hall.names, Parameters.size, ← List.length_map, hall.bindings, List.nil_append]
    · rw [hsplit, parametersAfter_eq]
      exact ((hstart.takeAll _).1.takeAll _).2
  | named =>
    have hd := h hstyle
    have hstart : (Registry.ofSettings settings).Labelled settings.stem (events.flatMap Event.entries) [] :=
      ⟨Registry.named_ofSettings hstyle _, rfl, rfl⟩
    refine ⟨?_, fun before between after hmoves => ?_⟩
    · obtain ⟨hall, -, hmem⟩ := hstart.takeAll hd (List.Subset.refl _)
      have hps : ps = ((Registry.ofSettings settings).takeAll events).parameters := parametersAfter_eq ..
      rw [hps]
      exact ⟨hall.nodup, hall.made, hmem⟩
    · have hpart (part : List Move) (hsub : part ⊆ moves) :
          (part.flatMap (Move.events table settings)).flatMap Event.entries ⊆ events.flatMap Event.entries := by
        intro e he
        obtain ⟨event, hevent, he⟩ := List.mem_flatMap.1 he
        obtain ⟨m, hm, hevent⟩ := List.mem_flatMap.1 hevent
        exact List.mem_flatMap.2 ⟨event, List.mem_flatMap.2 ⟨m, hsub hm, hevent⟩, he⟩
      have hbefore := (hstart.takeAll hd (hpart before (by simp [hmoves]))).1
      rw [hsplit, parametersAfter_eq]
      exact (hbefore.takeAll hd (hpart between (by simp [hmoves]))).2.1

/-- A value, a command and a comparison that is refused behind its first
operand. -/
def mixedMoves : List Move :=
  [.step (.bind ⟨.int 7, none⟩), .openStatement,
    .step (.absorb ⟨"\"a\" > @low", ⟨[("low", ⟨.int 1, none⟩)]⟩⟩),
    .step (.expression none (.binary .equal (.constant (.int 2)) (.project []))),
    .closeStatement 1, .step (.bind ⟨.int 9, none⟩)]

theorem mixedMoves_events :
    mixedMoves.flatMap (Move.events { name := "t" } {}) =
      [.bound ⟨.int 7, none⟩, .absorbed ⟨"\"a\" > @low", ⟨[("low", ⟨.int 1, none⟩)]⟩⟩,
        .bound ⟨.int 2, none⟩, .bound ⟨.int 9, none⟩] := by
  rfl

theorem mixedMoves_dictionary :
    Dictionary "p" ((mixedMoves.flatMap (Move.events { name := "t" } {})).flatMap Event.entries) where
  functional d hd e he _ := by
    rw [mixedMoves_events] at hd he
    exact (List.mem_singleton.1 hd).trans (List.mem_singleton.1 he).symm
  reserved e he := by
    rw [mixedMoves_events] at he
    rw [List.mem_singleton.1 he]
    exact ne_made_of_head (by decide) (by decide)

/-- The value of the refused comparison keeps its name. -/
theorem mixedMoves_kept :
    Dictionary "p" ((mixedMoves.flatMap (Move.events { name := "t" } {})).flatMap Event.entries) ∧
      (parametersAfter { name := "t" } {} mixedMoves).names.Nodup ∧
      ((parametersAfter { name := "t" } {} mixedMoves).toList.filter fun e => e.1 ∉ ["low"]) =
        [("p0", ⟨.int 7, none⟩), ("p1", ⟨.int 2, none⟩), ("p2", ⟨.int 9, none⟩)] := by
  have hd (_ : ({} : Settings).style = .named) := mixedMoves_dictionary
  obtain ⟨⟨hnodup, hmade, -⟩, -⟩ := registry_kept hd
  rw [mixedMoves_events] at hmade
  exact ⟨mixedMoves_dictionary, hnodup, hmade⟩

end Session

end ParamQuery
