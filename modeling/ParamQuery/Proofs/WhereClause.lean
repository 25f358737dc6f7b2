/-
What a compiled query says behind `WHERE`. Its conditions are settled one after
another, first the expressions and then the filters (`Query.ConditionTexts`), and
the text of the statement is read as the conjunction of what these texts are read
as (`where_clause_meaning`). A filter's own text is read as its formula.

The parameters have to be single words for that: their names are written as they
are (`crooked_parameters`).
-/
import ParamQuery.Proofs.ClauseParts
import ParamQuery.Proofs.Grouping

namespace ParamQuery

open Sql

/-! ## Settled slots -/

/-- The characters that names are made of in front of their numbers. -/
def Registry.PlainStem (r : Registry) : Prop := r.style = .named → ∀ c ∈ r.stem.toList, Lexer.isIdentifier c

theorem IsParameter.isSigns {s : String} (h : IsParameter s) : isSigns s := by
  obtain ⟨m, ⟨hsigil, -, hname⟩, rfl⟩ := h
  refine List.all_eq_true.2 fun c hc => ?_
  rw [Marker.text, String.toList_ofList] at hc
  rcases List.mem_cons.1 hc with rfl | hc
  · rcases hsigil with hsigil | hsigil <;> (rw [hsigil]; decide)
  · have hnext := hname c hc
    rcases hsigil with hsigil | hsigil <;>
      simp_all [Lexer.continues, Lexer.isSign, Lexer.isIdentifier, Char.isAlphanum]

namespace Registry

theorem Alike.plainStem {r r' : Registry} (h : r.Alike r') (hr : r.PlainStem) : r'.PlainStem := by
  rw [PlainStem, h.1, h.2]
  exact hr

/-- A new name is one parameter. -/
theorem isParameter_token {r : Registry} (h : r.PlainStem) (b : Binding) : IsParameter (r.token (r.add b).1) := by
  refine ⟨r.style.marker (r.add b).1, ?_, r.token_eq _⟩
  unfold Registry.add Registry.nextName
  cases hstyle : r.style with
  | named =>
    refine IsIdentifier.marker_valid ⟨by simp, fun c hc => ?_⟩
    rcases List.mem_append.1 (String.toList_append ▸ hc) with hc | hc
    · exact h hstyle c hc
    · exact isIdentifier_of_mem_toString hc
  | positional => exact toString_marker_valid _

theorem alike_absorb (r : Registry) (c : Command) : r.Alike (r.absorb c).2 := by
  have hfold : ∀ (es : List Entry) (s : String) (r : Registry), r.Alike (es.foldl absorbBinding (s, r)).2 := by
    intro es
    induction es with
    | nil => exact fun s r => ⟨rfl, rfl⟩
    | cons e es ih =>
      intro s r
      rw [List.foldl_cons]
      cases hstyle : r.style with
      | named =>
        have hstep : absorbBinding (s, r) e = (s, { r with parameters := r.parameters.insert e.1 e.2 }) := by
          simp [absorbBinding, hstyle]
        rw [hstep]
        exact ih s { r with parameters := r.parameters.insert e.1 e.2 }
      | positional =>
        have hstep : (absorbBinding (s, r) e).2 = (r.add e.2).2 := by simp [absorbBinding, hstyle]
        have hrest := ih (absorbBinding (s, r) e).1 (absorbBinding (s, r) e).2
        rw [hstep] at hrest
        rw [← Prod.eta (absorbBinding (s, r) e), hstep]
        exact (r.alike_add e.2).trans hrest
  exact hfold _ _ _

/-- Taking over bindings leaves signs. -/
theorem isSigns_renamed {s : String} (h : isSigns s) (r : Registry) (es : List Entry) : isSigns (r.renamed es s) := by
  induction es generalizing r s with
  | nil => exact h
  | cons e es ih =>
    cases hstyle : r.style with
    | named =>
      rw [renamed_cons_named hstyle]
      exact ih h _
    | positional =>
      rw [renamed_cons_positional hstyle]
      exact ih (isSigns_replaceAll (isSigns_number _) h) _

end Registry

namespace Slot

variable {slot : Slot} {text : String} {r r' : Registry}

theorem alike_settle (h : slot.settle.runOn r = (.ok text, r')) : r.Alike r' := by
  cases slot with
  | value v asText =>
    cases h
    exact r.alike_add _
  | filter c =>
    cases h
    exact r.alike_absorb c
  | reject e => cases h

/-- The tokens of a settled slot. -/
theorem exists_spelled (hstem : r.PlainStem) (hslot : slot.Takes Filter.Named)
    (h : slot.settle.runOn r = (.ok text, r')) : ∃ g, Spelled (slot, text) g := by
  cases slot with
  | value v asText =>
    cases h
    have htoken := Registry.isParameter_token hstem (boundAs v asText)
    obtain ⟨sigil, name, hlexemes⟩ := htoken.textLexemes
    refine ⟨[.slot (r.token (r.add (boundAs v asText)).1)], ?_, .slot _, .slot 0 _, ?_, fun _ _ _ => ⟨sigil, name, ?_⟩⟩
    · simp only [Fragment.render_cons, Token.render, Fragment.render_nil, String.append_empty]
      rfl
    · simpa [Token.slots] using htoken.isSigns
    · simpa [Token.lexemes] using hlexemes
  | filter c =>
    obtain ⟨f, table, qualifier, rfl, hnames⟩ := hslot
    cases h
    let es := (f.command table qualifier).parameters.toList
    have hes : ∀ e ∈ es, IsIdentifier e.1 := fun e he =>
      hnames e.1 (Filter.mem_names_command.1 (List.mem_map.2 ⟨e, he, rfl⟩))
    refine ⟨(f.fragment table qualifier).map (Token.rewrite (r.renamed es)),
      (Registry.renamed_render hes r (f.fragment_legible table qualifier)).symm,
      (f.fragment_legible table qualifier).rewrite _, (f.fragment_level table qualifier).rewrite _, ?_,
      by rintro _ _ ⟨⟩⟩
    rw [Fragment.slots_rewrite, Filter.slots_fragment, List.map_map]
    intro s hs
    obtain ⟨n, hn, rfl⟩ := List.mem_map.1 hs
    exact Registry.isSigns_renamed (isSigns_append (by decide) (hnames n hn).isSigns) r es
  | reject e => cases h

end Slot

/-! ## Runs -/

section Runs

variable {α β γ δ : Type}

theorem Naming.runOn_bind_ok {x : Naming α} {k : α → Naming β} {b : β} {r r' : Registry}
    (h : (x >>= k).runOn r = (.ok b, r')) : ∃ a r₁, x.runOn r = (.ok a, r₁) ∧ (k a).runOn r₁ = (.ok b, r') := by
  rw [Naming.runOn_bind] at h
  split at h
  · rename_i a r₁ hx
    exact ⟨a, r₁, hx, h⟩
  · cases h

namespace Visits

variable {f : β → Naming γ} {r r' : Registry} {l l' : List (β × γ)}

theorem of_append (h : Visits f r (l ++ l') r') : ∃ r₁, Visits f r l r₁ ∧ Visits f r₁ l' r' := by
  induction l generalizing r with
  | nil => exact ⟨r, .nil, h⟩
  | cons p l ih =>
    cases h with
    | cons hb hrest =>
      obtain ⟨r₁, hl, hl'⟩ := ih hrest
      exact ⟨r₁, .cons hb hl, hl'⟩

/-- What every step preserves, a run preserves, and every step of the run starts
with it. -/
theorem preserves {I : Registry → Prop} (hstep : ∀ b c r r', (f b).runOn r = (.ok c, r') → I r → I r')
    (h : Visits f r l r') (hr : I r) :
    I r' ∧ ∀ p ∈ l, ∃ r₁ r₂, I r₁ ∧ (f p.1).runOn r₁ = (.ok p.2, r₂) := by
  induction h with
  | nil => exact ⟨hr, by simp⟩
  | @cons b c l r r₁ r₂ hb _ ih =>
    obtain ⟨hlast, hrest⟩ := ih (hstep b c r r₁ hb hr)
    refine ⟨hlast, fun p hp => ?_⟩
    rcases List.mem_cons.1 hp with rfl | hp
    · exact ⟨r, r₁, hr, hb⟩
    · exact hrest p hp

/-- A run of other steps that do the same. -/
theorem transfer {g : α → β} {h : γ → δ} {k : α → Naming δ}
    (hk : ∀ a c r r', (f (g a)).runOn r = (.ok c, r') → (k a).runOn r = (.ok (h c), r')) {as : List α}
    (hl : l.map Prod.fst = as.map g) (hv : Visits f r l r') :
    ∃ m : List (α × δ), m.map Prod.fst = as ∧ m.map Prod.snd = l.map (fun p => h p.2) ∧ Visits k r m r' := by
  induction hv generalizing as with
  | nil =>
    cases as with
    | nil => exact ⟨[], rfl, rfl, .nil⟩
    | cons a as => cases hl
  | cons hb _ ih =>
    cases as with
    | nil => cases hl
    | cons a as =>
      obtain ⟨rfl, hrest⟩ := List.cons.inj hl
      obtain ⟨m, hm, hm', hv⟩ := ih hrest
      exact ⟨(a, h _) :: m, by simp [hm], by simp [hm'], .cons (hk a _ _ _ hb) hv⟩

end Visits

/-- Settling terms is a run over them. -/
theorem mapTerms_visits {f : β → Naming γ} {ts : List (Term β)} {ts' : List (Term γ)} {r r' : Registry}
    (h : (mapTerms f ts).runOn r = (.ok ts', r')) :
    ∃ l, l.map Prod.fst = ts ∧ l.map Prod.snd = ts' ∧ Visits (Term.mapM f) r l r' := by
  induction ts generalizing r ts' with
  | nil =>
    cases h
    exact ⟨[], rfl, rfl, .nil⟩
  | cons t ts ih =>
    obtain ⟨t', r₁, ht, hrest⟩ := Naming.runOn_bind_ok h
    obtain ⟨rest, r₂, hts, hlast⟩ := Naming.runOn_bind_ok hrest
    cases hlast
    obtain ⟨l, rfl, rfl, hv⟩ := ih hts
    exact ⟨(t, t') :: l, rfl, rfl, .cons ht hv⟩

/-- The conditions of a statement are settled behind its select list and its
joins. -/
theorem Sql.Select.mapM_conditions {f : β → Naming γ} {s : Select β} {s' : Select γ} {r r' : Registry}
    (h : (s.mapM f).runOn r = (.ok s', r')) :
    ∃ front r₁ r₂, ({ s with conditions := [], groupBy := [], orderBy := [] }.mapM f).runOn r = (.ok front, r₁) ∧
      (mapTerms f s.conditions).runOn r₁ = (.ok s'.conditions, r₂) := by
  obtain ⟨distinct, items, schema, table, joins, conditions, groupBy, orderBy, limit, offset⟩ := s
  obtain ⟨items', r₁, hitems, h⟩ := Naming.runOn_bind_ok h
  obtain ⟨joins', r₂, hjoins, h⟩ := Naming.runOn_bind_ok h
  obtain ⟨conditions', r₃, hconditions, h⟩ := Naming.runOn_bind_ok h
  obtain ⟨groupBy', r₄, -, h⟩ := Naming.runOn_bind_ok h
  obtain ⟨orderBy', r₅, -, h⟩ := Naming.runOn_bind_ok h
  cases h
  refine ⟨⟨distinct, items', schema, table, joins', [], [], [], limit, offset⟩, r₂, r₃, ?_, hconditions⟩
  simp only [Select.mapM, Select.walk, walkTerms, walkSortTerms, Naming.runOn_bind, Naming.runOn_pure, hitems, hjoins]

end Runs

/-! ## The conditions of a query -/

/-- The query without its conditions, and without what is written behind them. -/
def Query.unconditional (q : Query) : Query := { q with conditions := [], filters := [], groupBy := [], orderBy := [] }

/-- The texts that the conditions of a query are written as: behind the select
list and the joins its expressions are settled one after another, and then its
filters. -/
structure Query.ConditionTexts (q : Query) (table : Table) (settings : Settings) (exprs : List (Expr × String))
    (filters : List (Filter × String)) : Prop where
  exprs_eq : exprs.map Prod.fst = q.conditions
  filters_eq : filters.map Prod.fst = q.filters
  run : ∃ front r₁ r₂ r₃,
    (settleSelect (q.unconditional.emit (.ofSettings table settings none))).runOn (.ofSettings settings) =
      (.ok front, r₁) ∧
    Visits (fun e => settleTerm (e.emit (q.scope (.ofSettings table settings none)) {} false).term) r₁ exprs r₂ ∧
    Visits (fun f => (Slot.filter (f.command table (some (q.tableName table)))).settle) r₂ filters r₃

theorem Query.emit_unconditional (q : Query) (sc : Scope) :
    q.unconditional.emit sc = { q.emit sc with conditions := [], groupBy := [], orderBy := [] } := by
  rw [Query.emit_eq, Query.emit_eq]
  rfl

theorem settleTerm_of_run {t : Term Slot} {t' : Term String} {r r' : Registry}
    (h : (t.mapM Slot.settle).runOn r = (.ok t', r')) : (settleTerm t).runOn r = (.ok t'.render, r') := by
  rw [settleTerm, Naming.runOn_bind, h]
  rfl

theorem settle_of_run {b : Slot} {t' : Term String} {r r' : Registry}
    (h : ((Term.slot b).mapM Slot.settle).runOn r = (.ok t', r')) : b.settle.runOn r = (.ok t'.render, r') := by
  obtain ⟨text, r₁, hb, hlast⟩ := Naming.runOn_bind_ok h
  cases hlast
  simpa [Term.render, Term.fragment, Token.render] using hb

/-- A compilation writes the conditions as these texts. -/
theorem Query.exists_conditionTexts {q : Query} {table : Table} {settings : Settings} {cmd : Command}
    (h : q.compile table settings = .ok cmd) :
    ∃ (u : Select (Slot × String)) (r : Registry) (exprs : List (Expr × String)) (filters : List (Filter × String)),
      u.map Prod.fst = q.emit (.ofSettings table settings none) ∧
      Visits Slot.settle (.ofSettings settings) u.slots r ∧ cmd.text = (u.map Prod.snd).frame.render ∧
      q.ConditionTexts table settings exprs filters ∧
      (u.map Prod.snd).conditions.map Term.render = exprs.map Prod.snd ++ filters.map Prod.snd := by
  simp only [Query.compile, Naming.toCommand, Naming.runOn_bind, settleSelect] at h
  rcases Select.mapM_walks Slot.settle (q.emit (.ofSettings table settings none)) (.ofSettings settings) with
    ⟨-, s', r, hrun, -, hv, u, hu, rfl, rfl⟩ | ⟨e, r, hrun, -⟩
  swap
  · simp only [hrun] at h
    cases h
  simp only [hrun, Naming.runOn_pure] at h
  cases h
  obtain ⟨front, r₁, r₂, hfront, hconditions⟩ := Select.mapM_conditions hrun
  obtain ⟨l, hl, hl', hvisits⟩ := mapTerms_visits hconditions
  rw [Query.emit_eq] at hl
  obtain ⟨l₁, l₂, rfl, hl₁, hl₂⟩ := List.map_eq_append_iff.1 hl
  obtain ⟨r₃, hfirst, hsecond⟩ := hvisits.of_append
  obtain ⟨exprs, hexprs, htexts, hvisits₁⟩ := hfirst.transfer (h := Term.render)
    (k := fun e : Expr => settleTerm (e.emit (q.scope (.ofSettings table settings none)) {} false).term)
    (fun _ _ _ _ => settleTerm_of_run) hl₁
  obtain ⟨filters, hfilters, htexts', hvisits₂⟩ := hsecond.transfer (h := Term.render)
    (k := fun f : Filter => (Slot.filter (f.command table (some (q.tableName table)))).settle)
    (fun _ _ _ _ => settle_of_run) hl₂
  refine ⟨u, r, exprs, filters, hu, hv, rfl, ⟨hexprs, hfilters, front.frame, r₁, r₃, r₂, ?_, hvisits₁, hvisits₂⟩, ?_⟩
  · rw [Query.emit_unconditional, settleSelect, Naming.runOn_bind, hfront]
    rfl
  · rw [← hl', htexts, htexts', List.map_append, List.map_append, List.map_map, List.map_map]
    rfl

/-- Settling leaves what names are made of. -/
theorem Visits.alike {r r' : Registry} {l : List (Slot × String)} (h : Visits Slot.settle r l r') :
    r.Alike r' ∧ ∀ p ∈ l, ∃ r₁ r₂, r.Alike r₁ ∧ p.1.settle.runOn r₁ = (.ok p.2, r₂) :=
  h.preserves (fun _ _ _ _ hb hr => hr.trans (Slot.alike_settle hb)) ⟨rfl, rfl⟩

theorem Walks.alike {α : Type} {S : List Slot} {x : Naming α} {Q : List (Slot × String) → α → Prop}
    (h : Walks Slot.settle S x Q) {a : α} {r r' : Registry} (hrun : x.runOn r = (.ok a, r')) : r.Alike r' := by
  obtain ⟨l, b, r₁, hok, -, hv, -⟩ | ⟨e, r₁, herr, -⟩ := h r
  · rw [hok] at hrun
    cases hrun
    exact hv.alike.1
  · rw [herr] at hrun
    cases hrun

theorem alike_settleTerm {t : Term Slot} {text : String} {r r' : Registry}
    (h : (settleTerm t).runOn r = (.ok text, r')) : r.Alike r' := by
  obtain ⟨t', r₁, ht, hlast⟩ := Naming.runOn_bind_ok h
  cases hlast
  exact (Term.mapM_walks Slot.settle t).alike ht

/-- Every filter is taken over by a registry of the query's style. -/
theorem Query.ConditionTexts.absorbed {q : Query} {table : Table} {settings : Settings} {exprs : List (Expr × String)}
    {filters : List (Filter × String)} (h : q.ConditionTexts table settings exprs filters) :
    ∀ p ∈ filters, ∃ r : Registry, r.style = settings.style ∧
      p.2 = (r.absorb (p.1.command table (some (q.tableName table)))).1 := by
  obtain ⟨front, r₁, r₂, r₃, hfront, hexprs, hfilters⟩ := h.run
  have hstart : (Registry.ofSettings settings).Alike r₁ := by
    obtain ⟨s, r, hs, hlast⟩ := Naming.runOn_bind_ok hfront
    cases hlast
    exact (Select.mapM_walks Slot.settle _).alike hs
  have hmiddle := (hexprs.preserves (I := (Registry.ofSettings settings).Alike)
    (fun _ _ _ _ he hr => hr.trans (alike_settleTerm he)) hstart).1
  have hvisited := (hfilters.preserves (I := (Registry.ofSettings settings).Alike)
    (fun _ _ _ _ hf hr => hr.trans (Slot.alike_settle hf)) hmiddle).2
  intro p hp
  obtain ⟨r, r', hlike, hrun⟩ := hvisited p hp
  rw [Slot.settle_filter] at hrun
  exact ⟨r, hlike.1, (Except.ok.inj (Prod.mk.inj hrun).1).symm⟩

/-! ## The clause -/

/-- What a text is read as, if its quotes and its parentheses match. -/
def readText (s : String) : Option (Formula (List Part)) := (textParts s).map readCondition

/-- What is behind the `WHERE` of a statement, if the text can be read and has
one. -/
def readWhere (s : String) : Option (Option (Formula (List Part))) :=
  (textParts s).map fun ps => (conditionParts ps).map readCondition

/-- The parameters of a query are single words: the names of its filters are
identifiers, and so are the names that are made. Where the filters are
renumbered, no name of a filter is found in another one, unless digits follow. -/
structure Query.PlainParameters (q : Query) (settings : Settings) : Prop where
  names : ∀ n ∈ q.filterNames, IsIdentifier n
  stem : (Registry.ofSettings settings).PlainStem
  parted : settings.style = .positional → ∀ f ∈ q.filters, f.Parted

/-- The parts of a text whose slots are spelled out. -/
theorem Spelled.textParts_render {F : Fragment (Slot × String)} (hF : F.Legible)
    (spell : Slot × String → Fragment String) (h : ∀ p ∈ F.slots, Spelled p (spell p)) :
    textParts (Fragment.render (F.map (Token.map Prod.snd))) = parts (F.flatMap (Token.lexemes (spelling spell))) := by
  obtain ⟨hrender, hlegible, hsigns⟩ := Spelled.splice hF h
  rw [← hrender, textParts, hlegible.lex fun s hs => isReadable_of_isSigns (hsigns s hs), lexemes_splice]
  rfl

theorem Spelled.textParts {spell : Slot × String → Fragment String} {p : Slot × String} (h : Spelled p (spell p)) :
    textParts p.2 = parts (spelling spell p) := by
  have hslot := Spelled.textParts_render (F := [.slot p]) (.slot p) spell
    (by simpa [Token.slots] using h)
  simpa [Token.map, Token.render, Token.lexemes] using hslot

section Clause

theorem Query.PlainParameters.read_filter {q : Query} {settings : Settings} (h : q.PlainParameters settings)
    {f : Filter} (hf : f ∈ q.filters) {r : Registry} (hr : r.style = settings.style) (table : Table)
    (qualifier : Option String) :
    textParts (r.absorb (f.command table qualifier)).1 = some (f.partsIn r table qualifier f) ∧
      readCondition (f.partsIn r table qualifier f) = f.formula.map (f.partsIn r table qualifier) ∧
      FreeOf clauseKeywords (f.partsIn r table qualifier f) :=
  f.read_absorb r table qualifier (fun n hn => h.names n (mem_filterNames (Expr.mem_subterms_self _) hf hn))
    fun hstyle => h.parted (hr ▸ hstyle) f hf

variable {q : Query} {table : Table} {settings : Settings} {u : Select (Slot × String)} {r : Registry}
  {spell : Slot × String → Fragment String}

/-- Outside of parentheses the slots of a run have no keyword of a clause. -/
theorem Query.PlainParameters.bare_freeOf (h : q.PlainParameters settings)
    (hu : u.map Prod.fst = q.emit (.ofSettings table settings none))
    (hv : Visits Slot.settle (.ofSettings settings) u.slots r) (hspell : ∀ p ∈ u.slots, Spelled p (spell p)) :
    u.All fun t => ∀ p ∈ t.bare, Fragment.FreeOf clauseKeywords (spelling spell) [.slot p] := by
  have hbare : u.All fun t => ∀ b ∈ (t.map Prod.fst).bare, b.isFilter = false ∨
      ∃ f ∈ q.filters, b = .filter (f.command table (some (q.tableName table))) :=
    .of_map (hu ▸ q.bare_emit (.ofSettings table settings none))
  refine hbare.imp₂ u.all_slots fun t ht hslots p hp => ?_
  have hmem := hslots (t.bare_subset_slots hp)
  rw [Term.bare_map] at ht
  obtain ⟨slot, text⟩ := p
  cases slot with
  | value v asText =>
    obtain ⟨sigil, name, hlexemes⟩ := (hspell _ hmem).marker v asText rfl
    refine ⟨[.word (.parameter sigil name)], ?_, rfl⟩
    simp only [List.flatMap_cons, List.flatMap_nil, List.append_nil, Token.lexemes, spelling, hlexemes]
    rfl
  | filter c =>
    obtain hfilter | ⟨f, hf, hc⟩ := ht _ (List.mem_map.2 ⟨_, hp, rfl⟩)
    · cases hfilter
    · cases hc
      obtain ⟨r₁, r₂, hlike, hrun⟩ := hv.alike.2 _ hmem
      rw [Slot.settle_filter] at hrun
      obtain rfl := Except.ok.inj (Prod.mk.inj hrun).1
      obtain ⟨hparts, -, hfree⟩ := h.read_filter hf hlike.1 table (some (q.tableName table))
      rw [(hspell _ hmem).textParts] at hparts
      refine ⟨_, ?_, hfree⟩
      simpa [Token.lexemes] using hparts
  | reject e => exact absurd (hv.accepted _ hmem) (by simp [Slot.isAccepted])

theorem Query.joins_isFreeText (hu : u.map Prod.fst = q.emit (.ofSettings table settings none)) :
    ∀ j ∈ u.joins, isFreeText ["WHERE"] j.keyword := by
  intro j hj
  have hmem : j.map Prod.fst ∈ (u.map Prod.fst).joins := by
    rw [Select.map_eq]
    exact List.mem_map.2 ⟨j, hj, rfl⟩
  rw [hu, Query.emit_eq] at hmem
  obtain ⟨k, -, hk⟩ := List.mem_map.1 hmem
  have hkeyword : j.keyword = k.kind.keyword := (congrArg JoinOn.keyword hk).symm
  rw [hkeyword]
  cases k.kind <;> decide

theorem Query.orderBy_isFreeText (hu : u.map Prod.fst = q.emit (.ofSettings table settings none)) :
    ∀ k ∈ u.orderBy, isFreeText ["WHERE"] k.keyword := by
  intro k hk
  have hmem : k.map Prod.fst ∈ (u.map Prod.fst).orderBy := by
    rw [Select.map_eq]
    exact List.mem_map.2 ⟨k, hk, rfl⟩
  rw [hu, Query.emit_eq] at hmem
  obtain ⟨l, -, hl⟩ := List.mem_map.1 hmem
  have hkeyword : k.keyword = l.direction.keyword := (congrArg SortTerm.keyword hl).symm
  rw [hkeyword]
  cases l.direction <;> decide

/-- The statement of a run, and its conditions, read from their texts. -/
theorem Query.PlainParameters.read_run (h : q.PlainParameters settings)
    (hu : u.map Prod.fst = q.emit (.ofSettings table settings none))
    (hv : Visits Slot.settle (.ofSettings settings) u.slots r) :
    ∃ formulas, (u.map Prod.snd).conditions.map (fun t => readText t.render) = formulas.map some ∧
      readWhere (u.map Prod.snd).frame.render =
        some (if formulas.isEmpty then none else some (.conj formulas)) := by
  have hbuilt := Query.built_of_filters (P := Filter.Named)
    (fun hp _ hf n hn => h.names n (mem_filterNames hp hf hn)) hu
  -- slots that are not there are spelled as nothing
  have hspelled : ∀ p : Slot × String, ∃ g : Fragment String, Balanced (g.flatMap (Token.lexemes textLexemes)) ∧
      (p ∈ u.slots → Spelled p g) := by
    intro p
    by_cases hp : p ∈ u.slots
    · obtain ⟨r₁, r₂, hlike, hrun⟩ := hv.alike.2 p hp
      obtain ⟨g, hg⟩ := Slot.exists_spelled (hlike.plainStem h.stem) (hbuilt.of_mem_slots hp) hrun
      have hbalanced : Balanced (spelling (fun _ => g) p) := Spelled.balanced hg
      exact ⟨g, hbalanced, fun _ => hg⟩
    · exact ⟨[], rfl, fun hmem => absurd hmem hp⟩
  choose spell hbalanced hspell using hspelled
  obtain ⟨statement, gs, hstatement, hconditions, hclause⟩ := Select.read_conditions (x := spelling spell) hbuilt
    (fun p _ => hbalanced p) (h.bare_freeOf hu hv hspell) (joins_isFreeText hu) (orderBy_isFreeText hu)
  refine ⟨gs.map readCondition, ?_, ?_⟩
  · have hread : ∀ t ∈ u.conditions, readText (t.map Prod.snd).render =
        (parts (t.fragment.flatMap (Token.lexemes (spelling spell)))).map readCondition := by
      intro t ht
      have hterm : t.Built (fun _ _ _ => True) fun p => p.1.Takes Filter.Named := by
        cases hbuilt with
        | subquery _ _ _ hc _ _ _ _ => exact hc t ht
      have htext := Spelled.textParts_render hterm.legible spell
        fun p hp => hspell p (u.all_slots.conditions t ht (hterm.slots_subset hp))
      rw [readText, Term.render, Term.fragment_map, htext]
    have hsame : (u.map Prod.snd).conditions = u.conditions.map (Term.map Prod.snd) := by rw [Select.map_eq]
    have hmapped := congrArg (List.map (Option.map readCondition)) hconditions
    rw [List.map_map, List.map_map] at hmapped
    rw [hsame, List.map_map, List.map_map]
    exact (List.map_congr_left hread).trans hmapped
  · have htext := Spelled.textParts_render (Select.legible_of_built hbuilt) spell
      fun p hp => hspell p (Select.slots_subset_of_built hbuilt hp)
    rw [readWhere, Frame.render, Select.frame_map, Frame.statement_map, htext, hstatement, Option.map_some, hclause,
      List.isEmpty_map]

end Clause

/-- **What a `WHERE` clause says.** The text of a filter is read as its formula, an
atom for each of its comparisons, which has the truth value that the filter has.
The text of a compiled query has a `WHERE` if the query has conditions, and what
is behind it is read as the conjunction of what the texts of its conditions are
read as, first the expressions and then the filters.

The atoms are the words of the comparisons as the texts have them. A parameter
among them is a word like any other: that it is bound, and to which value, is not
part of what is read. -/
theorem where_clause_meaning (table : Table) :
    (∀ (f : Filter) (qualifier : Option String), (∀ n ∈ f.names, IsIdentifier n) →
      readText (f.command table qualifier).text = some (f.formula.map (Filter.ownParts table qualifier)) ∧
        ∀ v, f.formula.value v = f.value v) ∧
    ∀ (q : Query) (settings : Settings) (cmd : Command), q.PlainParameters settings →
      q.compile table settings = .ok cmd →
      ∃ (exprs : List (Expr × String)) (filters : List (Filter × String)) (formulas : List (Formula (List Part))),
        q.ConditionTexts table settings exprs filters ∧
        (exprs.map Prod.snd ++ filters.map Prod.snd).map readText = formulas.map some ∧
        readWhere cmd.text =
          some (if q.conditions.isEmpty && q.filters.isEmpty then none else some (.conj formulas)) ∧
        ∀ p ∈ filters, ∃ r : Registry,
          p.2 = (r.absorb (p.1.command table (some (q.tableName table)))).1 ∧
          readText p.2 = some (p.1.formula.map (p.1.partsIn r table (some (q.tableName table)))) := by
  refine ⟨fun f qualifier h => ⟨?_, fun v => Filter.value_formula v f⟩, fun q settings cmd hplain h => ?_⟩
  · obtain ⟨hparts, hread⟩ := Filter.read_command table qualifier h
    rw [readText, hparts, Option.map_some, hread]
  obtain ⟨u, r, exprs, filters, hu, hv, htext, htexts, hrender⟩ := Query.exists_conditionTexts h
  obtain ⟨formulas, hread, hclause⟩ := hplain.read_run hu hv
  have hformulas : (exprs.map Prod.snd ++ filters.map Prod.snd).map readText = formulas.map some := by
    rw [← hrender, List.map_map]
    exact hread
  refine ⟨exprs, filters, formulas, htexts, hformulas, ?_, fun p hp => ?_⟩
  · have hempty : formulas.isEmpty = (q.conditions.isEmpty && q.filters.isEmpty) := by
      have hlength := congrArg List.length hformulas
      simp only [List.length_map, List.length_append] at hlength
      rw [← htexts.exprs_eq, ← htexts.filters_eq, Bool.eq_iff_iff, Bool.and_eq_true, List.isEmpty_iff, List.isEmpty_iff,
        List.isEmpty_iff, ← List.length_eq_zero_iff, ← List.length_eq_zero_iff, ← List.length_eq_zero_iff,
        List.length_map, List.length_map]
      omega
    rw [htext, hclause, hempty]
  · obtain ⟨r, hstyle, habsorb⟩ := htexts.absorbed p hp
    have hf : p.1 ∈ q.filters := htexts.filters_eq ▸ List.mem_map.2 ⟨p, hp, rfl⟩
    obtain ⟨hparts, hfilter, -⟩ := hplain.read_filter hf hstyle table (some (q.tableName table))
    refine ⟨r, habsorb, ?_⟩
    rw [habsorb, readText, hparts, Option.map_some, hfilter]

/-! ## Parameters that are not single words -/

/-- The number of rows under conditions. -/
def countWhere (conditions : List Expr) (filters : List Filter) : Query where
  source := ⟨"", [], none, none⟩
  selector := none
  joins := []
  conditions := conditions
  filters := filters
  groupBy := []
  orderBy := []
  limit := none
  offset := none
  distinct := false
  count := true

/-- A disjunction, and two filters that are disjunctions. -/
def layeredConditions : Query := countWhere
  [.binary .orElse (.binary .equal (.member none ["a"] .integer) (.constant (.int 1)))
    (.binary .lessThan (.member none ["b"] .integer) (.constant (.int 2)))]
  [.or [.between "a" ⟨"low", .int 1⟩ ⟨"high", .int 2⟩, .and [], .not (.isNull "b" false)], .or []]

theorem layeredConditions_filterNames : layeredConditions.filterNames = ["low", "high"] := by
  decide

theorem layeredConditions_plain : layeredConditions.PlainParameters { style := .positional } where
  names := by
    rw [layeredConditions_filterNames]
    decide
  stem := by rintro ⟨⟩
  parted _ := by decide

theorem exists_ok_text {x : Except CompileError Command} {s : String} (h : x.toOption.map (·.text) = some s) :
    ∃ cmd, x = .ok cmd ∧ cmd.text = s := by
  cases x with
  | error e => cases h
  | ok cmd => exact ⟨cmd, rfl, Option.some.inj h⟩

set_option maxRecDepth 10000 in
theorem layeredConditions_text :
    (layeredConditions.compile { name := "t" } { style := .positional }).toOption.map (·.text) =
      some ("SELECT COUNT(*) FROM \"t\" WHERE (\"t\".\"a\" = $1 OR \"t\".\"b\" < $2) AND " ++
        "((\"t\".\"a\" BETWEEN $3 AND $4) OR (TRUE) OR (NOT (\"t\".\"b\" IS NULL))) AND (FALSE)") := by
  decide +kernel

/-- Three conditions are read, and each filter as what it says. -/
theorem layeredConditions_where :
    layeredConditions.PlainParameters { style := .positional } ∧
    (∀ f ∈ layeredConditions.filters, readText (f.command { name := "t" } none).text =
      some (f.formula.map (Filter.ownParts { name := "t" } none))) ∧
    ∃ cmd exprs filters formulas,
      layeredConditions.compile { name := "t" } { style := .positional } = .ok cmd ∧
      layeredConditions.ConditionTexts { name := "t" } { style := .positional } exprs filters ∧
      (exprs.map Prod.snd ++ filters.map Prod.snd).map readText = formulas.map some ∧
      readWhere cmd.text = some (some (.conj formulas)) ∧ formulas.length = 3 ∧
      ∀ p ∈ filters, ∃ r : Registry, readText p.2 =
        some (p.1.formula.map
          (p.1.partsIn r { name := "t" } (some (layeredConditions.tableName { name := "t" })))) := by
  obtain ⟨cmd, hc, -⟩ := exists_ok_text layeredConditions_text
  obtain ⟨exprs, filters, formulas, htexts, hformulas, hclause, hfilters⟩ :=
    (where_clause_meaning { name := "t" }).2 _ _ _ layeredConditions_plain hc
  refine ⟨layeredConditions_plain, fun f hf => ?_, cmd, exprs, filters, formulas, hc, htexts, hformulas, hclause, ?_,
    fun p hp => ?_⟩
  · have hnames : ∀ n ∈ f.names, IsIdentifier n := fun n hn =>
      layeredConditions_plain.names n (mem_filterNames (Expr.mem_subterms_self _) hf hn)
    exact ((where_clause_meaning { name := "t" }).1 f none hnames).1
  · have hlength := congrArg List.length hformulas
    simp only [List.length_map, List.length_append] at hlength
    have hexprs := congrArg List.length htexts.exprs_eq
    have hfilters := congrArg List.length htexts.filters_eq
    simp only [List.length_map, layeredConditions, countWhere, List.length_cons, List.length_nil] at hexprs hfilters
    omega
  · obtain ⟨r, -, hread⟩ := hfilters p hp
    exact ⟨r, hread⟩

/-- A filter whose parameter has a name that goes on like SQL. -/
def escapingFilter : Filter := .not (.compare "a" .equal ⟨"x) OR (TRUE", .int 1⟩)

/-- A filter with a name that another one begins with. -/
def overlappingFilter : Filter := .between "a" ⟨"low", .int 1⟩ ⟨"lowOR", .int 2⟩

theorem readText_escaping : readText "NOT (\"a\" = @x) OR (TRUE)" =
    some (.any [.not (.atom [.word (.quoted '"' "a"), .word (.plain "="), .word (.parameter '@' "x")]), .all []]) := by
  have hparts : textParts "NOT (\"a\" = @x) OR (TRUE)" = some [.word (.plain "NOT"), .group [.word (.quoted '"' "a"),
      .word (.plain "="), .word (.parameter '@' "x")], .word (.plain "OR"), .group [.word (.plain "TRUE")]] := rfl
  rw [readText, hparts]
  simp [readCondition, readParts, Level.put, Part.isWord, Part.formula, opensStatement, Level.result, Level.disjunct,
    readOperand, Formula.conj, Formula.disj]

theorem readWhere_overlapping : readWhere "SELECT COUNT(*) FROM \"t\" WHERE \"t\".\"a\" BETWEEN $1 AND $1OR" =
    some (some (.any [.atom [.word (.quoted '"' "t"), .word (.plain "."), .word (.quoted '"' "a"),
      .word (.plain "BETWEEN"), .word (.parameter '$' "1"), .word (.plain "AND"), .word (.parameter '$' "1")],
      .atom []])) := by
  have hparts : (textParts "SELECT COUNT(*) FROM \"t\" WHERE \"t\".\"a\" BETWEEN $1 AND $1OR").map conditionParts =
      some (some [.word (.quoted '"' "t"), .word (.plain "."), .word (.quoted '"' "a"), .word (.plain "BETWEEN"),
        .word (.parameter '$' "1"), .word (.plain "AND"), .word (.parameter '$' "1"), .word (.plain "OR")]) := rfl
  obtain ⟨ps, hps, hclause⟩ := Option.map_eq_some_iff.1 hparts
  rw [readWhere, hps, Option.map_some, hclause]
  simp [readCondition, readParts, Level.put, Part.isWord, Part.formula, Level.result, Level.disjunct, readOperand,
    Formula.conj, Formula.disj]

/-- **Names that are not single words change what is said.** A name with
parentheses ends the negation of its filter early. A name that begins another one
is replaced in it, and what is left is read as a word. A prefix with a parenthesis
leaves a text that cannot be read. -/
theorem crooked_parameters :
    (∀ leaf, readText (escapingFilter.command { name := "t" } none).text ≠ some (escapingFilter.formula.map leaf)) ∧
    (∃ cmd, (countWhere [] [overlappingFilter]).compile { name := "t" } { style := .positional } = .ok cmd ∧
      ∀ leaf, readWhere cmd.text ≠ some (some (overlappingFilter.formula.map leaf))) ∧
    ∃ cmd, (countWhere [.constant (.bool true)] []).compile { name := "t" } { stem := "p) OR (" } = .ok cmd ∧
      readWhere cmd.text = none := by
  refine ⟨fun leaf h => ?_, ?_, ?_⟩
  · have htext : (escapingFilter.command { name := "t" } none).text = "NOT (\"a\" = @x) OR (TRUE)" := by decide +kernel
    rw [htext, readText_escaping] at h
    cases h
  · obtain ⟨cmd, hc, htext⟩ := exists_ok_text (s := "SELECT COUNT(*) FROM \"t\" WHERE \"t\".\"a\" BETWEEN $1 AND $1OR")
      (x := (countWhere [] [overlappingFilter]).compile { name := "t" } { style := .positional }) (by decide +kernel)
    refine ⟨cmd, hc, fun leaf h => ?_⟩
    rw [htext, readWhere_overlapping] at h
    cases h
  · obtain ⟨cmd, hc, htext⟩ := exists_ok_text (s := "SELECT COUNT(*) FROM \"t\" WHERE @p) OR (0")
      (x := (countWhere [.constant (.bool true)] []).compile { name := "t" } { stem := "p) OR (" }) (by decide +kernel)
    exact ⟨cmd, hc, htext ▸ rfl⟩

end ParamQuery
