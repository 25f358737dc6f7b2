/-
Conditions that are written more than once. A condition of a filter has parameters
with names of its own, so all its occurrences in a statement share one binding, and
in named style each of them sets it anew: the last one in the order of visiting
stays (`Visits.get?_last`).

`occurrences_bound`: the value is the condition's own, whichever occurrence is the
last. Whether it is bound as text is decided by the table that the last one is
written for, and this is what another occurrence asks for unless the condition
leads into a document of the described table and only one of the two is written for
that table (`sharedCondition_bound_as_text`).
-/
import ParamQuery.Proofs.Layouts
import ParamQuery.Proofs.Qualification
import ParamQuery.Proofs.WhereClause

namespace ParamQuery

open Sql

/-! ## Setting names -/

namespace Parameters

theorem get?_insert (ps : Parameters) (n m : String) (b : Binding) :
    (ps.insert n b).get? m = if n = m then some b else ps.get? m := by
  obtain ⟨es⟩ := ps
  simp only [insert, get?]
  induction es with
  | nil => by_cases h : n = m <;> simp [setIn, h]
  | cons e es ih =>
    obtain ⟨k, c⟩ := e
    by_cases hk : k = n
    · subst hk
      by_cases h : k = m <;> simp [setIn, h]
    · rw [setIn, if_neg hk, List.find?_cons, List.find?_cons]
      by_cases h : k = m
      · have hne : n ≠ m := fun hn => hk (h.trans hn.symm)
        simp [h, hne]
      · simpa [beq_eq_false_iff_ne.2 h] using ih

theorem get?_insertAll_of_notMem {es : List Entry} {n : String} (h : n ∉ es.map (·.1)) (ps : Parameters) :
    (ps.insertAll es).get? n = ps.get? n := by
  induction es generalizing ps with
  | nil => rfl
  | cons e es ih =>
    simp only [List.map_cons, List.mem_cons, not_or] at h
    show ((ps.insert e.1 e.2).insertAll es).get? n = _
    rw [ih h.2, get?_insert, if_neg (Ne.symm h.1)]

/-- Entries that agree on a name set it, in whatever order. -/
theorem get?_insertAll_of_forall {es : List Entry} {n : String} {b : Binding} (hn : n ∈ es.map (·.1))
    (hb : ∀ e ∈ es, e.1 = n → e.2 = b) (ps : Parameters) : (ps.insertAll es).get? n = some b := by
  induction es generalizing ps with
  | nil => cases hn
  | cons e es ih =>
    show ((ps.insert e.1 e.2).insertAll es).get? n = _
    by_cases hes : n ∈ es.map (·.1)
    · exact ih hes (fun d hd => hb d (by simp [hd])) _
    · have he : n = e.1 := (List.mem_cons.1 hn).resolve_right hes
      rw [get?_insertAll_of_notMem hes, get?_insert, if_pos he.symm, hb e (by simp) he.symm]

end Parameters

/-! ## Runs in named style -/

/-- A name that is not made for a value. -/
def Registry.NeverMakes (r : Registry) (n : String) : Prop := ∀ k : Nat, n ≠ r.stem ++ toString k

section Runs

variable {n : String} {r r' : Registry}

/-- Settling a slot leaves the names that are not in it. -/
theorem Slot.get?_settle {slot : Slot} {text : String} (hstyle : r.style = .named) (hn : r.NeverMakes n)
    (hslot : n ∉ slot.filterNames) (h : slot.settle.runOn r = (.ok text, r')) :
    r'.parameters.get? n = r.parameters.get? n := by
  cases slot with
  | value v asText =>
    cases h
    have hname : r.nextName = r.stem ++ toString r.counter := by simp [Registry.nextName, hstyle]
    have hne : r.nextName ≠ n := fun heq => hn r.counter (heq ▸ hname.symm ▸ rfl)
    show (r.parameters.insert r.nextName _).get? n = _
    rw [Parameters.get?_insert, if_neg hne]
  | filter c =>
    rw [Slot.settle_filter, Registry.absorb_named hstyle] at h
    cases h
    exact Parameters.get?_insertAll_of_notMem hslot _
  | reject e => cases h

theorem Visits.get?_of_notMem {l : List (Slot × String)} (hv : Visits Slot.settle r l r') (hstyle : r.style = .named)
    (hn : r.NeverMakes n) (hl : ∀ p ∈ l, n ∉ p.1.filterNames) : r'.parameters.get? n = r.parameters.get? n := by
  induction hv with
  | nil => rfl
  | @cons slot text l r r₁ r₂ hb hrest ih =>
    have halike := Slot.alike_settle hb
    have hfree : r₁.NeverMakes n := by
      rw [Registry.NeverMakes, halike.2]
      exact hn
    rw [ih (halike.1.trans hstyle) hfree fun p hp => hl p (by simp [hp]),
      Slot.get?_settle hstyle hn (hl (slot, text) (by simp)) hb]

/-- **The last occurrence stays.** Behind the last filter that has a name the name is
bound as this filter binds it. -/
theorem Visits.get?_last {before after : List (Slot × String)} {f : Filter} {table : Table} {qualifier : Option String}
    {text : String} {b : Binding}
    (hv : Visits Slot.settle r (before ++ (Slot.filter (f.command table qualifier), text) :: after) r')
    (hstyle : r.style = .named) (hn : r.NeverMakes n) (hafter : ∀ p ∈ after, n ∉ p.1.filterNames) (hmem : n ∈ f.names)
    (hb : ∀ e ∈ f.bindings table qualifier, e.1 = n → e.2 = b) : r'.parameters.get? n = some b := by
  obtain ⟨r₁, hbefore, hrest⟩ := hv.of_append
  cases hrest with
  | @cons _ _ _ _ r₂ _ hslot hlast =>
  have halike := hbefore.alike.1
  have hsettled := Slot.alike_settle hslot
  have hfree : r₂.NeverMakes n := by
    rw [Registry.NeverMakes, hsettled.2, halike.2]
    exact hn
  rw [hlast.get?_of_notMem (hsettled.1.trans (halike.1.trans hstyle)) hfree hafter]
  rw [Slot.settle_filter, Registry.absorb_named (halike.1.trans hstyle)] at hslot
  cases hslot
  show (r₁.parameters.insertAll (Parameters.ofList (f.bindings table qualifier)).toList).get? n = some b
  rw [Parameters.insertAll_ofList]
  exact Parameters.get?_insertAll_of_forall (by rwa [Filter.bindings_names]) hb _

end Runs

/-- The last one of those that there are. -/
theorem exists_last {α : Type} {P : α → Prop} {l : List α} (h : ∃ a ∈ l, P a) :
    ∃ before a after, l = before ++ a :: after ∧ P a ∧ ∀ x ∈ after, ¬P x := by
  induction l with
  | nil =>
    obtain ⟨a, ha, -⟩ := h
    cases ha
  | cons x l ih =>
    by_cases hl : ∃ a ∈ l, P a
    · obtain ⟨before, a, after, rfl, ha, hafter⟩ := ih hl
      exact ⟨x :: before, a, after, rfl, ha, hafter⟩
    · obtain ⟨a, ha, hP⟩ := h
      rcases List.mem_cons.1 ha with rfl | ha
      · exact ⟨[], a, l, rfl, hP, fun y hy hy' => hl ⟨y, hy, hy'⟩⟩
      · exact absurd ⟨a, ha, hP⟩ hl

/-! ## Conditions and their names -/

/-- The comparisons of the filters of a query, none for another expression. -/
def Expr.ownConditions : Expr → List (String × List FilterParameter)
  | .subquery p => p.filters.flatMap Filter.leaves
  | _ => []

/-- The conditions of the filters in a query and in the queries inside it, each as its
path and its parameters. -/
def Query.filterConditions (q : Query) : List (String × List FilterParameter) :=
  (Expr.subquery q).subterms.flatMap Expr.ownConditions

/-- A name belongs to one parameter of one condition, wherever the condition is
written, and is none that is made for a value. -/
structure Query.NamesConditions (q : Query) (stem : String) : Prop where
  apart : ∀ c ∈ q.filterConditions, ∀ x ∈ c.2, ∀ c' ∈ q.filterConditions, ∀ x' ∈ c'.2, x.name = x'.name →
    c = c' ∧ x = x'
  reserved : ∀ c ∈ q.filterConditions, ∀ x ∈ c.2, ∀ k : Nat, x.name ≠ stem ++ toString k

/-- Whether a path is text depends on the table that it is written for only in that it
may be another one than the table that is described. -/
theorem ColumnPath.jsonText_resolve (p : ColumnPath) (table : Table) (t : String) :
    (p.resolve table (some t)).jsonText = (t == table.name && table.leadsIntoDocument p.segments) := by
  rw [ColumnPath.resolve_eq, ColumnPath.jsonText_target]
  by_cases ht : t = table.name
  · subst ht
    simp [ColumnPath.found?, Table.leadsIntoDocument, ColumnPath.isNested, ColumnPath.base]
  · simp [ColumnPath.found?_foreign p ht, ht]

theorem Query.mem_filterConditions {q p : Query} (hp : Expr.subquery p ∈ (Expr.subquery q).subterms) {f : Filter}
    (hf : f ∈ p.filters) {c : String × List FilterParameter} (hc : c ∈ f.leaves) : c ∈ q.filterConditions :=
  List.mem_flatMap.2 ⟨_, hp, List.mem_flatMap.2 ⟨f, hf, hc⟩⟩

theorem Filter.mem_bindings {f : Filter} {table : Table} {qualifier : Option String} {e : Entry} :
    e ∈ f.bindings table qualifier ↔
      ∃ c ∈ f.leaves, ∃ x ∈ c.2, x.binding ((ColumnPath.parse c.1).resolve table qualifier) = e := by
  rw [Filter.bindings_eq_leaves]
  simp only [List.mem_flatMap, List.mem_map]

theorem Filter.mem_names {f : Filter} {n : String} : n ∈ f.names ↔ ∃ c ∈ f.leaves, ∃ x ∈ c.2, x.name = n := by
  rw [← Filter.bindings_names {} none, List.mem_map]
  simp only [Filter.mem_bindings]
  constructor
  · rintro ⟨e, ⟨c, hc, x, hx, rfl⟩, rfl⟩
    exact ⟨c, hc, x, hx, rfl⟩
  · rintro ⟨c, hc, x, hx, rfl⟩
    exact ⟨_, ⟨c, hc, x, hx, rfl⟩, rfl⟩

theorem Filter.mem_filterNames {f : Filter} {table : Table} {qualifier : Option String} {n : String} :
    n ∈ (Slot.filter (f.command table qualifier)).filterNames ↔ n ∈ f.names := Filter.mem_names_command

section Conditions

variable {q p p' : Query} {f f' : Filter} {stem : String} {c : String × List FilterParameter} {x : FilterParameter}

/-- Who has the name of a condition has the condition. -/
theorem Query.NamesConditions.mem_leaves (h : q.NamesConditions stem) (hf : q.HasFilter p f) (hf' : q.HasFilter p' f')
    (hc : c ∈ f.leaves) (hx : x ∈ c.2) (hn : x.name ∈ f'.names) : c ∈ f'.leaves := by
  obtain ⟨c', hc', x', hx', hname⟩ := Filter.mem_names.1 hn
  have hsame := h.apart c (Query.mem_filterConditions hf.1 hf.2 hc) x hx c' (Query.mem_filterConditions hf'.1 hf'.2 hc')
    x' hx' hname.symm
  exact hsame.1 ▸ hc'

/-- All entries of a name are those of its condition. -/
theorem Query.NamesConditions.binding_eq (h : q.NamesConditions stem) (hf : q.HasFilter p f) (hc : c ∈ f.leaves)
    (hx : x ∈ c.2) (table : Table) (qualifier : Option String) :
    ∀ e ∈ f.bindings table qualifier, e.1 = x.name →
      e.2 = (x.binding ((ColumnPath.parse c.1).resolve table qualifier)).2 := by
  intro e he hname
  obtain ⟨c', hc', x', hx', rfl⟩ := Filter.mem_bindings.1 he
  obtain ⟨rfl, rfl⟩ := h.apart c (Query.mem_filterConditions hf.1 hf.2 hc) x hx c'
    (Query.mem_filterConditions hf.1 hf.2 hc') x' hx' hname.symm
  rfl

end Conditions

/-- Two tables ask for the same binding of a parameter, unless its condition leads into
a document of the described table and only one of them is that table. -/
theorem FilterParameter.binding_eq_iff (x : FilterParameter) (path : String) (table : Table) (t t' : String) :
    some (x.binding ((ColumnPath.parse path).resolve table (some t'))).2 =
        some (x.binding ((ColumnPath.parse path).resolve table (some t))).2 ↔
      table.leadsIntoDocument (pathSegments path) = false ∨ (t = table.name ↔ t' = table.name) := by
  simp only [FilterParameter.binding, ColumnPath.jsonText_resolve, ColumnPath.parse]
  cases table.leadsIntoDocument (pathSegments path) <;> by_cases ht : t = table.name <;>
    by_cases ht' : t' = table.name <;> simp [ht, ht']

/-- **Every occurrence of a condition is bound as its last one.** In named style each
occurrence of a filter is written as the filter is on its own, and the name of each of
its parameters is bound to the parameter's value, as the table of the condition's last
occurrence asks for. That is what this occurrence asks for, too, unless the condition
leads into a document of the described table and just one of the two occurrences is
written for that table. -/
theorem occurrences_bound {q : Query} {table : Table} {settings : Settings} {cmd : Command}
    (hstyle : settings.style = .named) (hnames : q.NamesConditions settings.stem)
    (h : q.compile table settings = .ok cmd) :
    ∃ u : Select (Slot × String), u.map Prod.fst = q.emit (.ofSettings table settings none) ∧
      cmd.text = (u.map Prod.snd).frame.render ∧
      ∀ p f text, q.HasFilter p f → (Slot.filter (f.command table (some (p.tableName table))), text) ∈ u.slots →
        text = Fragment.render (f.fragment table (some (p.tableName table))) ∧
        ∀ c ∈ f.leaves, ∀ x ∈ c.2, x.token ∈ f.fragment table (some (p.tableName table)) ∧
          ∃ before p' f' after, q.HasFilter p' f' ∧ c ∈ f'.leaves ∧
            u.slots.map Prod.fst = before ++ Slot.filter (f'.command table (some (p'.tableName table))) :: after ∧
            (∀ slot ∈ after, x.name ∉ slot.filterNames) ∧
            cmd.parameters.get? x.name =
              some (x.binding ((ColumnPath.parse c.1).resolve table (some (p'.tableName table)))).2 ∧
            (cmd.parameters.get? x.name =
                some (x.binding ((ColumnPath.parse c.1).resolve table (some (p.tableName table)))).2 ↔
              table.leadsIntoDocument (pathSegments c.1) = false ∨
                (p.tableName table = table.name ↔ p'.tableName table = table.name)) := by
  obtain ⟨u, r, hu, hv, rfl⟩ := Query.compile_eq_ok h
  have hbuilt := Query.built_of_filters (P := fun f t qualifier => ∃ p, q.HasFilter p f ∧ t = table ∧
    qualifier = some (p.tableName table)) (fun hp _ hf => ⟨_, ⟨hp, hf⟩, rfl, rfl⟩) hu
  refine ⟨u, hu, rfl, fun p f text hf hmem => ⟨?_, fun c hcond x hx => ?_⟩⟩
  · obtain ⟨r₁, r₂, halike, hsettle⟩ := hv.alike.2 _ hmem
    rw [Slot.settle_filter, Registry.absorb_named (halike.1.trans hstyle)] at hsettle
    cases hsettle
    rfl
  · have hname : x.name ∈ f.names := Filter.mem_names.2 ⟨c, hcond, x, hx, rfl⟩
    refine ⟨?_, ?_⟩
    · rw [FilterParameter.token, ← Fragment.mem_slots, Filter.slots_fragment]
      exact List.mem_map.2 ⟨_, hname, rfl⟩
    -- the last slot in which the name stands is a filter with the same condition
    obtain ⟨before, ⟨slot, text'⟩, after, hslots, hslot, hafter⟩ :=
      exists_last (P := fun p : Slot × String => x.name ∈ p.1.filterNames) ⟨_, hmem, Filter.mem_filterNames.2 hname⟩
    have hlast : (slot, text') ∈ u.slots := by simp [hslots]
    have htakes := hbuilt.of_mem_slots hlast
    cases slot with
    | value v asText => cases hslot
    | reject e => cases hslot
    | filter command =>
      obtain ⟨f', _, _, rfl, p', hf', rfl, rfl⟩ := htakes
      have hname' := Filter.mem_filterNames.1 hslot
      have hcond' := hnames.mem_leaves hf hf' hcond hx hname'
      have hfree : (Registry.ofSettings settings).NeverMakes x.name :=
        hnames.reserved c (Query.mem_filterConditions hf.1 hf.2 hcond) x hx
      rw [hslots] at hv
      have hget := hv.get?_last hstyle hfree hafter hname' (hnames.binding_eq hf' hcond' hx _ _)
      refine ⟨before.map Prod.fst, p', f', after.map Prod.fst, hf', hcond', by rw [hslots]; simp, ?_, hget, ?_⟩
      · intro slot hslot
        obtain ⟨pair, hpair, rfl⟩ := List.mem_map.1 hslot
        exact hafter pair hpair
      · rw [hget]
        exact x.binding_eq_iff c.1 _ _ _

/-- A table with a column of documents. -/
def documentsTable : Table := { name := "t", columns := ⟨[{ dbName := "doc", type := .jsonb }]⟩ }

/-- A condition on a document. -/
def sharedCondition : Filter := .compare "doc.k" .equal ⟨"x", .int 1⟩

/-- The condition on rows of another table, as a query. -/
def sharedElsewhere : Query := { countWhere [] [sharedCondition] with source := ⟨"", [], some "other", none⟩ }

/-- The condition twice: on the rows of another table, and then on those of the
described one. -/
def sharedTwice : Query := countWhere [.subquery sharedElsewhere] [sharedCondition]

theorem sharedTwice_namesConditions : sharedTwice.NamesConditions "p" := by
  have hconditions : ∀ c ∈ sharedTwice.filterConditions, c = ("doc.k", [⟨"x", .int 1⟩]) := by
    intro c hc
    change c ∈ [("doc.k", [⟨"x", .int 1⟩]), ("doc.k", [⟨"x", .int 1⟩])] at hc
    simpa using hc
  refine ⟨fun c hc x hx c' hc' x' hx' _ => ?_, fun c hc x hx k => ?_⟩
  · obtain rfl := hconditions c hc
    obtain rfl := hconditions c' hc'
    exact ⟨rfl, (List.mem_singleton.1 hx).trans (List.mem_singleton.1 hx').symm⟩
  · obtain rfl := hconditions c hc
    obtain rfl := List.mem_singleton.1 hx
    exact fun h => absurd (congrArg (fun s => s.toList.head?) h) (by simp)

/-- The value is the condition's own. -/
theorem sharedTwice_bound :
    sharedTwice.NamesConditions "p" ∧ sharedTwice.HasFilter sharedElsewhere sharedCondition ∧
    ∃ cmd b, sharedTwice.compile documentsTable {} = .ok cmd ∧ cmd.parameters.get? "x" = some b ∧ b.value = .int 1 := by
  have hfilter : sharedTwice.HasFilter sharedElsewhere sharedCondition :=
    ⟨List.mem_cons_of_mem _ (List.mem_cons_self ..), List.mem_singleton_self _⟩
  obtain ⟨cmd, hc⟩ : ∃ cmd, sharedTwice.compile documentsTable {} = .ok cmd := ⟨_, rfl⟩
  obtain ⟨u, hu, -, hall⟩ := occurrences_bound rfl sharedTwice_namesConditions hc
  have hslots : u.slots.map Prod.fst = [.filter (sharedCondition.command documentsTable (some "other")),
      .filter (sharedCondition.command documentsTable (some "t"))] := by
    rw [← Select.slots_map, hu]
    rfl
  obtain ⟨⟨slot, text⟩, hmem, hslot⟩ := List.mem_map.1 (hslots ▸ List.mem_cons_self ..)
  cases hslot
  obtain ⟨-, hleaves⟩ := hall sharedElsewhere sharedCondition text hfilter hmem
  obtain ⟨-, -, p', -, -, -, -, -, -, hget, -⟩ := hleaves _ (List.mem_singleton_self _) _ (List.mem_singleton_self _)
  exact ⟨sharedTwice_namesConditions, hfilter, cmd, _, hc, hget, rfl⟩

/-- The other table asks for the number as it is, and gets it bound as text. -/
theorem sharedCondition_bound_as_text :
    sharedTwice.compile documentsTable {} =
      .ok ⟨"SELECT COUNT(*) FROM \"t\" WHERE ((SELECT COUNT(*) FROM \"other\" WHERE \"other\".\"doc\" = @x))" ++
        " AND (\"t\".\"doc\"->>'k' = @x)", ⟨[("x", ⟨.int 1, some .text⟩)]⟩⟩ ∧
    (sharedCondition.command documentsTable (some "other")).parameters = ⟨[("x", ⟨.int 1, none⟩)]⟩ ∧
    (sharedCondition.command documentsTable (some "t")).parameters = ⟨[("x", ⟨.int 1, some .text⟩)]⟩ :=
  ⟨rfl, rfl, rfl⟩

end ParamQuery
