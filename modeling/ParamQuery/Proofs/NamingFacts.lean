/-
Settling a term visits its slots one after another. `Term.mapM_walks`: the walk
over a term either runs through all its slots (`Visits`), and then term and
result are the two sides of one term of pairs, or stops at the first slot that
refuses (`Refuses`). What a compilation registers is thereby a matter of the
list of slots alone. `Term.mapM_simulates`: a change of slots and registry that
settling a slot commutes with is one that settling a term commutes with.
-/
import ParamQuery.Compile.Naming
import ParamQuery.Proofs.TermFacts

namespace ParamQuery

open Sql

variable {α β γ δ : Type}

/-! ## Slots -/

/-- The binding that a value slot asks for. -/
def boundAs (v : Literal) (asText : Bool) : Binding := ⟨v, if asText then some .text else none⟩

theorem Slot.settle_value (v : Literal) (asText : Bool) (r : Registry) :
    (Slot.value v asText).settle.runOn r =
      (.ok (r.token (r.add (boundAs v asText)).1), (r.add (boundAs v asText)).2) := rfl

theorem Slot.settle_filter (c : Command) (r : Registry) :
    (Slot.filter c).settle.runOn r = (.ok (r.absorb c).1, (r.absorb c).2) := rfl

theorem Slot.settle_reject (e : CompileError) (r : Registry) :
    (Slot.reject e).settle.runOn r = (.error e, r) := rfl

/-! ## Runs over slots -/

/-- `f` settles the slots of the pairs in turn, each to its partner. -/
inductive Visits (f : β → Naming γ) : Registry → List (β × γ) → Registry → Prop
  | nil {r} : Visits f r [] r
  | cons {b c l r r₁ r₂} : (f b).runOn r = (.ok c, r₁) → Visits f r₁ l r₂ → Visits f r ((b, c) :: l) r₂

/-- `f` settles some of the slots in turn and then refuses one. -/
inductive Refuses (f : β → Naming γ) : Registry → List β → CompileError → Registry → Prop
  | here {b l e r r₁} : (f b).runOn r = (.error e, r₁) → Refuses f r (b :: l) e r₁
  | later {b c l e r r₁ r₂} : (f b).runOn r = (.ok c, r₁) → Refuses f r₁ l e r₂ → Refuses f r (b :: l) e r₂

variable {f : β → Naming γ}

theorem Visits.append {r r₁ r₂ : Registry} {l l' : List (β × γ)} (h : Visits f r l r₁) (h' : Visits f r₁ l' r₂) :
    Visits f r (l ++ l') r₂ := by
  induction h with
  | nil => exact h'
  | cons hb _ ih => exact .cons hb (ih h')

theorem Refuses.append {r r₁ : Registry} {l : List β} {e : CompileError} (h : Refuses f r l e r₁) (l' : List β) :
    Refuses f r (l ++ l') e r₁ := by
  induction h with
  | here hb => exact .here hb
  | later hb _ ih => exact .later hb ih

theorem Visits.refuses {r r₁ r₂ : Registry} {l : List (β × γ)} {l' : List β} {e : CompileError}
    (h : Visits f r l r₁) (h' : Refuses f r₁ l' e r₂) : Refuses f r (l.map Prod.fst ++ l') e r₂ := by
  induction h with
  | nil => exact h'
  | cons hb _ ih => exact .later hb (ih h')

/-! ## Steps that visit -/

/-- A step that visits the slots `S`, with what the result has to do with the
pairs of slots and partners. -/
def Walks (f : β → Naming γ) (S : List β) (x : Naming α) (Q : List (β × γ) → α → Prop) : Prop :=
  ∀ r, (∃ l a r', x.runOn r = (.ok a, r') ∧ l.map Prod.fst = S ∧ Visits f r l r' ∧ Q l a) ∨
    ∃ e r', x.runOn r = (.error e, r') ∧ Refuses f r S e r'

theorem Walks.pure {a : α} {Q : List (β × γ) → α → Prop} (h : Q [] a) : Walks f [] (pure a : Naming α) Q :=
  fun r => .inl ⟨[], a, r, Naming.runOn_pure a r, rfl, .nil, h⟩

theorem Walks.bind {S T : List β} {x : Naming α} {k : α → Naming δ} {Q : List (β × γ) → α → Prop}
    {R : List (β × γ) → δ → Prop} (hx : Walks f S x Q)
    (hk : ∀ l a, Q l a → Walks f T (k a) fun l' d => R (l ++ l') d) : Walks f (S ++ T) (x >>= k) R := by
  intro r
  rcases hx r with ⟨l, a, r₁, hrun, rfl, hv, hq⟩ | ⟨e, r₁, hrun, he⟩
  · rcases hk l a hq r₁ with ⟨l', d, r₂, hrun', rfl, hv', hr⟩ | ⟨e, r₂, hrun', he⟩
    · refine .inl ⟨l ++ l', d, r₂, ?_, List.map_append, hv.append hv', hr⟩
      rw [Naming.runOn_bind, hrun]
      exact hrun'
    · refine .inr ⟨e, r₂, ?_, hv.refuses he⟩
      rw [Naming.runOn_bind, hrun]
      exact hrun'
  · refine .inr ⟨e, r₁, ?_, he.append T⟩
    rw [Naming.runOn_bind, hrun]

theorem Walks.map {S : List β} {x : Naming α} {g : α → δ} {Q : List (β × γ) → α → Prop}
    {R : List (β × γ) → δ → Prop} (hx : Walks f S x Q) (h : ∀ l a, Q l a → R l (g a)) :
    Walks f S (x >>= fun a => Pure.pure (g a)) R := by
  have := hx.bind (T := []) (k := fun a => Pure.pure (g a)) (R := R)
    fun l a hq => Walks.pure (by simpa using h l a hq)
  simpa using this

/-! ## Terms -/

/-- The pairs are the slots of a term whose left sides give `t` and whose right
sides give `t'`. -/
def Paired (t : Term β) (l : List (β × γ)) (t' : Term γ) : Prop :=
  ∃ u : Term (β × γ), u.map Prod.fst = t ∧ u.map Prod.snd = t' ∧ u.slots = l

/-- `Paired` for a list of terms. -/
def PairedAll (ts : List (Term β)) (l : List (β × γ)) (ts' : List (Term γ)) : Prop :=
  ∃ us : List (Term (β × γ)), us.map (Term.map Prod.fst) = ts ∧ us.map (Term.map Prod.snd) = ts' ∧
    us.flatMap Term.slots = l

theorem mapTerms_walks {ts : List (Term β)} (h : ∀ t ∈ ts, Walks f t.slots (t.mapM f) (Paired t)) :
    Walks f (ts.flatMap Term.slots) (mapTerms f ts) (PairedAll ts) := by
  induction ts with
  | nil => exact Walks.pure ⟨[], rfl, rfl, rfl⟩
  | cons t ts ih =>
    refine (h t (by simp)).bind fun l t' ⟨u, hu, hu', hl⟩ =>
      (ih fun t ht => h t (by simp [ht])).map fun l' ts' ⟨us, hus, hus', hl'⟩ => ?_
    exact ⟨u :: us, by simp [hu, hus], by simp [hu', hus'], by simp [hl, hl']⟩

theorem mapArms_walks {arms : List (Arm β)}
    (h : ∀ a ∈ arms, (∀ t ∈ a.guards, Walks f t.slots (t.mapM f) (Paired t)) ∧
      Walks f a.value.slots (a.value.mapM f) (Paired a.value)) :
    Walks f (arms.flatMap Arm.slots) (mapArms f arms) fun l arms' =>
      ∃ us : List (Arm (β × γ)), us.map (Arm.map Prod.fst) = arms ∧ us.map (Arm.map Prod.snd) = arms' ∧
        us.flatMap Arm.slots = l := by
  induction arms with
  | nil => exact Walks.pure ⟨[], rfl, rfl, rfl⟩
  | cons a arms ih =>
    obtain ⟨guards, value⟩ := a
    obtain ⟨hg, hv⟩ := h ⟨guards, value⟩ (by simp)
    simp only [List.flatMap_cons, Arm.slots, List.append_assoc]
    refine (mapTerms_walks hg).bind ?_
    rintro l gs' ⟨gs, hgs, hgs', hl⟩
    refine hv.bind ?_
    rintro l' v' ⟨v, hv, hv', hl'⟩
    refine (ih fun a ha => h a (by simp [ha])).map ?_
    rintro l'' arms' ⟨us, hus, hus', hl''⟩
    refine ⟨⟨gs, v⟩ :: us, ?_, ?_, ?_⟩
    · simp [Arm.map, hgs, hv, hus]
    · simp [Arm.map, hgs', hv', hus']
    · simp [Arm.slots, hl, hl', hl'']

theorem mapJoins_walks {js : List (JoinOn β)}
    (h : ∀ j ∈ js, Walks f j.outer.slots (j.outer.mapM f) (Paired j.outer) ∧
      Walks f j.inner.slots (j.inner.mapM f) (Paired j.inner)) :
    Walks f (js.flatMap JoinOn.slots) (mapJoins f js) fun l js' =>
      ∃ us : List (JoinOn (β × γ)), us.map (JoinOn.map Prod.fst) = js ∧ us.map (JoinOn.map Prod.snd) = js' ∧
        us.flatMap JoinOn.slots = l := by
  induction js with
  | nil => exact Walks.pure ⟨[], rfl, rfl, rfl⟩
  | cons j js ih =>
    obtain ⟨keyword, table, outer, inner⟩ := j
    obtain ⟨ho, hi⟩ := h ⟨keyword, table, outer, inner⟩ (by simp)
    simp only [List.flatMap_cons, JoinOn.slots, List.append_assoc]
    refine ho.bind ?_
    rintro l o' ⟨o, ho, ho', hl⟩
    refine hi.bind ?_
    rintro l' i' ⟨i, hi, hi', hl'⟩
    refine (ih fun j hj => h j (by simp [hj])).map ?_
    rintro l'' js' ⟨us, hus, hus', hl''⟩
    refine ⟨⟨keyword, table, o, i⟩ :: us, ?_, ?_, ?_⟩
    · simp [JoinOn.map, ho, hi, hus]
    · simp [JoinOn.map, ho', hi', hus']
    · simp [JoinOn.slots, hl, hl', hl'']

theorem mapSortTerms_walks {ks : List (SortTerm β)}
    (h : ∀ k ∈ ks, Walks f k.key.slots (k.key.mapM f) (Paired k.key)) :
    Walks f (ks.flatMap (·.key.slots)) (mapSortTerms f ks) fun l ks' =>
      ∃ us : List (SortTerm (β × γ)), us.map (SortTerm.map Prod.fst) = ks ∧
        us.map (SortTerm.map Prod.snd) = ks' ∧ us.flatMap (·.key.slots) = l := by
  induction ks with
  | nil => exact Walks.pure ⟨[], rfl, rfl, rfl⟩
  | cons k ks ih =>
    obtain ⟨key, keyword⟩ := k
    refine (h ⟨key, keyword⟩ (by simp)).bind fun l k' ⟨k, hk, hk', hl⟩ =>
      (ih fun k hk => h k (by simp [hk])).map fun l' ks' ⟨us, hus, hus', hl'⟩ => ?_
    refine ⟨⟨k, keyword⟩ :: us, ?_, ?_, ?_⟩
    · simp [SortTerm.map, hk, hus]
    · simp [SortTerm.map, hk', hus']
    · simp [hl, hl']

/-- `Paired` for statements. -/
def PairedSelect (s : Select β) (l : List (β × γ)) (s' : Select γ) : Prop :=
  ∃ u : Select (β × γ), u.map Prod.fst = s ∧ u.map Prod.snd = s' ∧ u.slots = l

theorem Sql.Select.mapM_walks_of {s : Select β} (h : s.All fun t => Walks f t.slots (t.mapM f) (Paired t)) :
    Walks f s.slots (s.mapM f) (PairedSelect s) := by
  obtain ⟨distinct, items, schema, table, joins, conditions, groupBy, orderBy, limit, offset⟩ := s
  simp only [Select.slots_eq, List.append_assoc]
  refine h.items.bind fun l₁ t' ⟨t, ht, ht', hl₁⟩ =>
    (mapJoins_walks h.joins).bind fun l₂ js' ⟨js, hjs, hjs', hl₂⟩ =>
    (mapTerms_walks h.conditions).bind fun l₃ cs' ⟨cs, hcs, hcs', hl₃⟩ =>
    (mapTerms_walks h.groupBy).bind fun l₄ gs' ⟨gs, hgs, hgs', hl₄⟩ =>
    (mapSortTerms_walks h.orderBy).map fun l₅ ks' ⟨ks, hks, hks', hl₅⟩ => ?_
  refine ⟨⟨distinct, t, schema, table, js, cs, gs, ks, limit, offset⟩, ?_, ?_, ?_⟩
  · simp [Select.map_eq, ht, hjs, hcs, hgs, hks]
  · simp [Select.map_eq, ht', hjs', hcs', hgs', hks']
  · simp [Select.slots_eq, hl₁, hl₂, hl₃, hl₄, hl₅]

/-- **Settling is a run over the slots.** The walk over a term visits its slots
in order; it gives the term with each slot replaced by what it was settled to,
or stops at a slot that refuses. -/
theorem Sql.Term.mapM_walks (f : β → Naming γ) (t : Term β) : Walks f t.slots (t.mapM f) (Paired t) := by
  induction t using Term.induction with
  | slot b =>
    intro r
    rcases hb : (f b).runOn r with ⟨e | c, r₁⟩
    · exact .inr ⟨e, r₁, by simp only [Term.mapM, Term.walk, Naming.runOn_bind, hb], .here hb⟩
    · refine .inl ⟨[(b, c)], .slot c, r₁, ?_, rfl, .cons hb .nil, .slot (b, c), rfl, rfl, rfl⟩
      simp only [Term.mapM, Term.walk, Naming.runOn_bind, hb, Naming.runOn_pure]
  | table name => exact Walks.pure ⟨.table name, rfl, rfl, rfl⟩
  | allColumns table => exact Walks.pure ⟨.allColumns table, rfl, rfl, rfl⟩
  | column qualifier name steps ih =>
    exact ih.map fun l t' ⟨u, hu, hu', hl⟩ => ⟨.column u name steps, by simp [hu], by simp [hu'], hl⟩
  | countAll => exact Walks.pure ⟨.countAll, rfl, rfl, rfl⟩
  | labelled t label ih =>
    exact ih.map fun l t' ⟨u, hu, hu', hl⟩ => ⟨.labelled u label, by simp [hu], by simp [hu'], hl⟩
  | list items ih =>
    simp only [Term.slots, termSlots_eq_flatMap]
    refine (mapTerms_walks ih).map ?_
    rintro l ts' ⟨us, hus, hus', hl⟩
    refine ⟨.list us, ?_, ?_, ?_⟩
    · simp [hus]
    · simp [hus']
    · simp [Term.slots, termSlots_eq_flatMap, hl]
  | operation left op right ihl ihr =>
    refine ihl.bind ?_
    rintro l t' ⟨u, hu, hu', hl⟩
    refine ihr.map ?_
    rintro l' t'' ⟨v, hv, hv', hl'⟩
    exact ⟨.operation u op v, by simp [hu, hv], by simp [hu', hv'], by simp [Term.slots, hl, hl']⟩
  | nullTest t negated ih =>
    exact ih.map fun l t' ⟨u, hu, hu', hl⟩ => ⟨.nullTest u negated, by simp [hu], by simp [hu'], hl⟩
  | negation t ih => exact ih.map fun l t' ⟨u, hu, hu', hl⟩ => ⟨.negation u, by simp [hu], by simp [hu'], hl⟩
  | paren t ih => exact ih.map fun l t' ⟨u, hu, hu', hl⟩ => ⟨.paren u, by simp [hu], by simp [hu'], hl⟩
  | lengthOf t ih => exact ih.map fun l t' ⟨u, hu, hu', hl⟩ => ⟨.lengthOf u, by simp [hu], by simp [hu'], hl⟩
  | call template arguments ih =>
    simp only [Term.slots, termSlots_eq_flatMap]
    refine (mapTerms_walks ih).map ?_
    rintro l ts' ⟨us, hus, hus', hl⟩
    refine ⟨.call template us, ?_, ?_, ?_⟩
    · simp [hus]
    · simp [hus']
    · simp [Term.slots, termSlots_eq_flatMap, hl]
  | caseWhen arms otherwise iha iho =>
    simp only [Term.slots, armSlots_eq_flatMap]
    refine (mapArms_walks iha).bind ?_
    rintro l arms' ⟨us, hus, hus', hl⟩
    refine iho.map ?_
    rintro l' o' ⟨o, ho, ho', hl'⟩
    refine ⟨.caseWhen us o, ?_, ?_, ?_⟩
    · simp [hus, ho]
    · simp [hus', ho']
    · simp [Term.slots, armSlots_eq_flatMap, hl, hl']
  | groupCount table copy inner outer ihi iho =>
    refine ihi.bind ?_
    rintro l t' ⟨u, hu, hu', hl⟩
    refine iho.map ?_
    rintro l' t'' ⟨v, hv, hv', hl'⟩
    exact ⟨.groupCount table copy u v, by simp [hu, hv], by simp [hu', hv'], by simp [Term.slots, hl, hl']⟩
  | subquery s ih =>
    refine (Select.mapM_walks_of ih).map ?_
    rintro l s' ⟨u, hu, hu', hl⟩
    refine ⟨.subquery u, ?_, ?_, ?_⟩
    · simp [hu]
    · simp [hu']
    · simpa [Term.slots] using hl

theorem Sql.Select.mapM_walks (f : β → Naming γ) (s : Select β) : Walks f s.slots (s.mapM f) (PairedSelect s) :=
  Select.mapM_walks_of (Select.All.intro (Term.mapM_walks f) s)

/-! ## Steps that commute with a change of the registry -/

/-- The second step does on the changed registry what the first one does on the
registry itself. -/
def Simulates {α : Type} (φ : Registry → Registry) (x y : Naming α) : Prop :=
  ∀ r, y.runOn (φ r) = ((x.runOn r).1, φ (x.runOn r).2)

variable {φ : Registry → Registry}

theorem Simulates.pure (a : α) : Simulates φ (pure a : Naming α) (Pure.pure a) := fun _ => rfl

theorem Simulates.bind {x y : Naming α} {k l : α → Naming δ} (h : Simulates φ x y)
    (hk : ∀ a, Simulates φ (k a) (l a)) : Simulates φ (x >>= k) (y >>= l) := by
  intro r
  rw [Naming.runOn_bind, Naming.runOn_bind, h r]
  rcases x.runOn r with ⟨_ | a, r₁⟩
  · rfl
  · exact hk a r₁

theorem mapTerms_simulates {g : β → δ} {f : β → Naming γ} {f' : δ → Naming γ} {ts : List (Term β)}
    (h : ∀ t ∈ ts, Simulates φ (t.mapM f) ((t.map g).mapM f')) :
    Simulates φ (mapTerms f ts) (mapTerms f' (ts.map (Term.map g))) := by
  induction ts with
  | nil => exact .pure []
  | cons t ts ih =>
    exact (h t (by simp)).bind fun _ => (ih fun t ht => h t (by simp [ht])).bind fun _ => .pure _

theorem mapArms_simulates {g : β → δ} {f : β → Naming γ} {f' : δ → Naming γ} {arms : List (Arm β)}
    (h : ∀ a ∈ arms, (∀ t ∈ a.guards, Simulates φ (t.mapM f) ((t.map g).mapM f')) ∧
      Simulates φ (a.value.mapM f) ((a.value.map g).mapM f')) :
    Simulates φ (mapArms f arms) (mapArms f' (arms.map (Arm.map g))) := by
  induction arms with
  | nil => exact .pure []
  | cons a arms ih =>
    obtain ⟨guards, value⟩ := a
    obtain ⟨hg, hv⟩ := h ⟨guards, value⟩ (by simp)
    exact (mapTerms_simulates hg).bind fun _ => hv.bind fun _ =>
      (ih fun a ha => h a (by simp [ha])).bind fun _ => .pure _

theorem mapJoins_simulates {g : β → δ} {f : β → Naming γ} {f' : δ → Naming γ} {js : List (JoinOn β)}
    (h : ∀ j ∈ js, Simulates φ (j.outer.mapM f) ((j.outer.map g).mapM f') ∧
      Simulates φ (j.inner.mapM f) ((j.inner.map g).mapM f')) :
    Simulates φ (mapJoins f js) (mapJoins f' (js.map (JoinOn.map g))) := by
  induction js with
  | nil => exact .pure []
  | cons j js ih =>
    obtain ⟨keyword, table, outer, inner⟩ := j
    obtain ⟨ho, hi⟩ := h ⟨keyword, table, outer, inner⟩ (by simp)
    exact ho.bind fun _ => hi.bind fun _ => (ih fun j hj => h j (by simp [hj])).bind fun _ => .pure _

theorem mapSortTerms_simulates {g : β → δ} {f : β → Naming γ} {f' : δ → Naming γ}
    {ks : List (SortTerm β)} (h : ∀ k ∈ ks, Simulates φ (k.key.mapM f) ((k.key.map g).mapM f')) :
    Simulates φ (mapSortTerms f ks) (mapSortTerms f' (ks.map (SortTerm.map g))) := by
  induction ks with
  | nil => exact .pure []
  | cons k ks ih =>
    obtain ⟨key, keyword⟩ := k
    exact (h ⟨key, keyword⟩ (by simp)).bind fun _ => (ih fun k hk => h k (by simp [hk])).bind fun _ => .pure _

theorem Sql.Select.mapM_simulates_of {g : β → δ} {f : β → Naming γ} {f' : δ → Naming γ} {s : Select β}
    (h : s.All fun t => Simulates φ (t.mapM f) ((t.map g).mapM f')) :
    Simulates φ (s.mapM f) ((s.map g).mapM f') := by
  rw [Select.map_eq]
  obtain ⟨distinct, items, schema, table, joins, conditions, groupBy, orderBy, limit, offset⟩ := s
  exact h.items.bind fun _ => (mapJoins_simulates h.joins).bind fun _ =>
    (mapTerms_simulates h.conditions).bind fun _ => (mapTerms_simulates h.groupBy).bind fun _ =>
    (mapSortTerms_simulates h.orderBy).bind fun _ => .pure _

/-- **Settling commutes with a change of slots and registry** when settling
each slot does. -/
theorem Sql.Term.mapM_simulates {g : β → δ} {f : β → Naming γ} {f' : δ → Naming γ}
    (h : ∀ b, Simulates φ (f b) (f' (g b))) (t : Term β) : Simulates φ (t.mapM f) ((t.map g).mapM f') := by
  induction t using Term.induction with
  | slot b => exact (h b).bind fun _ => .pure _
  | table name => exact .pure _
  | allColumns table => exact .pure _
  | column qualifier name steps ih => exact ih.bind fun _ => .pure _
  | countAll => exact .pure _
  | labelled t label ih => exact ih.bind fun _ => .pure _
  | list items ih =>
    rw [Term.map_list]
    exact (mapTerms_simulates ih).bind fun _ => .pure _
  | operation left op right ihl ihr => exact ihl.bind fun _ => ihr.bind fun _ => .pure _
  | nullTest t negated ih => exact ih.bind fun _ => .pure _
  | negation t ih => exact ih.bind fun _ => .pure _
  | paren t ih => exact ih.bind fun _ => .pure _
  | lengthOf t ih => exact ih.bind fun _ => .pure _
  | call template arguments ih =>
    rw [Term.map_call]
    exact (mapTerms_simulates ih).bind fun _ => .pure _
  | caseWhen arms otherwise iha iho =>
    rw [Term.map_caseWhen]
    exact (mapArms_simulates iha).bind fun _ => iho.bind fun _ => .pure _
  | groupCount table copy inner outer ihi iho => exact ihi.bind fun _ => iho.bind fun _ => .pure _
  | subquery s ih => exact (Select.mapM_simulates_of ih).bind fun _ => .pure _

theorem Sql.Select.mapM_simulates {g : β → δ} {f : β → Naming γ} {f' : δ → Naming γ}
    (h : ∀ b, Simulates φ (f b) (f' (g b))) (s : Select β) : Simulates φ (s.mapM f) ((s.map g).mapM f') :=
  Select.mapM_simulates_of (Select.All.intro (Term.mapM_simulates h) s)

/-! ## Compilations -/

/-- What a term that can be settled is: the text of the term with its slots filled
in. -/
theorem settleTerm_eq_ok {t : Term Slot} {text : String} {r r' : Registry}
    (h : (settleTerm t).runOn r = (.ok text, r')) :
    ∃ u : Term (Slot × String), u.map Prod.fst = t ∧ Visits Slot.settle r u.slots r' ∧
      text = (u.map Prod.snd).render := by
  rw [settleTerm, Naming.runOn_bind] at h
  rcases t.mapM_walks Slot.settle r with ⟨l, t', r₁, hrun, -, hv, u, hu, rfl, rfl⟩ | ⟨err, r₁, hrun, -⟩
  · rw [hrun] at h
    cases h
    exact ⟨u, hu, hv, rfl⟩
  · rw [hrun] at h
    cases h

/-- The same of a statement and its clauses. -/
theorem settleSelect_eq_ok {s : Select Slot} {frame : Frame String} {r r' : Registry}
    (h : (settleSelect s).runOn r = (.ok frame, r')) :
    ∃ u : Select (Slot × String), u.map Prod.fst = s ∧ Visits Slot.settle r u.slots r' ∧
      frame = (u.map Prod.snd).frame := by
  rw [settleSelect, Naming.runOn_bind] at h
  rcases s.mapM_walks Slot.settle r with ⟨l, s', r₁, hrun, -, hv, u, hu, rfl, rfl⟩ | ⟨err, r₁, hrun, -⟩
  · rw [hrun] at h
    cases h
    exact ⟨u, hu, hv, rfl⟩
  · rw [hrun] at h
    cases h

/-- What the compilation of a query can do: run through the slots of its
statement and write the statement with what they were settled to, or fail at
the first slot that refuses. -/
theorem Query.compile_cases (q : Query) (table : Table) (settings : Settings) :
    (∃ (u : Select (Slot × String)) (r : Registry), u.map Prod.fst = q.emit (.ofSettings table settings none) ∧
      Visits Slot.settle (.ofSettings settings) u.slots r ∧
      q.compile table settings = .ok ⟨(u.map Prod.snd).frame.render, r.parameters⟩) ∨
    ∃ e r, Refuses Slot.settle (.ofSettings settings) (q.emit (.ofSettings table settings none)).slots e r ∧
      q.compile table settings = .error e := by
  simp only [Query.compile, Naming.toCommand, Naming.runOn_bind, settleSelect]
  rcases Select.mapM_walks Slot.settle (q.emit (.ofSettings table settings none)) (.ofSettings settings) with
    ⟨l, s', r, hrun, -, hv, u, hu, hu', rfl⟩ | ⟨e, r, hrun, he⟩
  · refine .inl ⟨u, r, hu, hv, ?_⟩
    simp only [hrun, hu', Naming.runOn_pure]
  · refine .inr ⟨e, r, he, ?_⟩
    simp only [hrun]

/-- A query that compiles: its statement, with what the slots were settled to. -/
theorem Query.compile_eq_ok {q : Query} {table : Table} {settings : Settings} {cmd : Command}
    (h : q.compile table settings = .ok cmd) :
    ∃ (u : Select (Slot × String)) (r : Registry), u.map Prod.fst = q.emit (.ofSettings table settings none) ∧
      Visits Slot.settle (.ofSettings settings) u.slots r ∧ cmd = ⟨(u.map Prod.snd).frame.render, r.parameters⟩ := by
  obtain ⟨u, r, hu, hv, hok⟩ | ⟨e, r, -, herr⟩ := q.compile_cases table settings
  · exact ⟨u, r, hu, hv, Except.ok.inj (h.symm.trans hok)⟩
  · cases h.symm.trans herr

/-- What the compilation of an expression can do. -/
theorem Expr.compile_cases (e : Expr) (table : Table) (settings : Settings) (qualifier : Option String) :
    (∃ (u : Term (Slot × String)) (r : Registry),
      u.map Prod.fst = (e.emit (.ofSettings table settings qualifier) {} false).term ∧
      Visits Slot.settle (.ofSettings settings) u.slots r ∧
      e.compile table settings qualifier = .ok ⟨(u.map Prod.snd).render, r.parameters⟩) ∨
    ∃ err r, Refuses Slot.settle (.ofSettings settings)
        (e.emit (.ofSettings table settings qualifier) {} false).term.slots err r ∧
      e.compile table settings qualifier = .error err := by
  simp only [Expr.compile, Naming.toCommand, Naming.runOn_bind, settleTerm]
  rcases Term.mapM_walks Slot.settle (e.emit (.ofSettings table settings qualifier) {} false).term
    (.ofSettings settings) with ⟨l, t', r, hrun, -, hv, u, hu, hu', rfl⟩ | ⟨err, r, hrun, he⟩
  · refine .inl ⟨u, r, hu, hv, ?_⟩
    simp only [hrun, hu', Naming.runOn_pure]
  · refine .inr ⟨err, r, he, ?_⟩
    simp only [hrun]

end ParamQuery
