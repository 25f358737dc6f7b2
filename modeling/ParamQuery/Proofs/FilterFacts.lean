/-
Facts about filters: induction over the filters inside one, the lists of a
filter's SQL and bindings written with `map` and `flatMap`, and the names of
its parameters from left to right, which are the names it binds and the slots
of its SQL. The SQL of a filter is legible (`Filter.fragment_legible`), and holds
a character in its names only if the table or a path of the filter does
(`Filter.fragment_lacks`).
-/
import ParamQuery.Filter.Command
import ParamQuery.Proofs.FragmentFacts
import ParamQuery.Proofs.ReplaceFacts
import Mathlib.Data.List.Basic

namespace ParamQuery.Filter

/-! ## Induction -/

section Induction

set_option linter.unusedSectionVars false

variable {P : Filter → Prop}
  (compare : ∀ path op value, P (.compare path op value))
  (like : ∀ path pattern, P (.like path pattern))
  (isNull : ∀ path negated, P (.isNull path negated))
  (between : ∀ path low high, P (.between path low high))
  (and : ∀ items, (∀ f ∈ items, P f) → P (.and items))
  (or : ∀ items, (∀ f ∈ items, P f) → P (.or items))
  (not : ∀ item, P item → P (.not item))

include compare like isNull between and or not

mutual
/-- Induction over filters, with the items of a connective taken together. -/
theorem induction : ∀ f, P f
  | .compare path op value => compare path op value
  | .like path pattern => like path pattern
  | .isNull path negated => isNull path negated
  | .between path low high => between path low high
  | .and items => and _ (itemsInduction items)
  | .or items => or _ (itemsInduction items)
  | .not item => not _ (induction item)
theorem itemsInduction : ∀ items : List Filter, ∀ f ∈ items, P f
  | [] => by simp
  | f :: items => by
    have hf := induction f
    have hitems := itemsInduction items
    simpa using ⟨hf, hitems⟩
end

end Induction

/-! ## Lists inside filters -/

variable (table : Table) (qualifier : Option String)

theorem fragments_eq_map (items : List Filter) :
    fragments table qualifier items =
      items.map fun f => Sql.Fragment.parenthesized (f.fragment table qualifier) := by
  induction items with
  | nil => rfl
  | cons f items ih => simp [fragments, ih]

theorem bindingsOf_eq_flatMap (items : List Filter) :
    bindingsOf table qualifier items = items.flatMap (bindings table qualifier) := by
  induction items with
  | nil => rfl
  | cons f items ih => simp [bindingsOf, ih]

theorem fragment_and_cons (f : Filter) (items : List Filter) :
    fragment table qualifier (.and (f :: items)) =
      Sql.Fragment.separated " AND " ((f :: items).map fun f =>
        Sql.Fragment.parenthesized (f.fragment table qualifier)) := by
  simp [fragment, fragments_eq_map]

theorem fragment_or_cons (f : Filter) (items : List Filter) :
    fragment table qualifier (.or (f :: items)) =
      Sql.Fragment.separated " OR " ((f :: items).map fun f =>
        Sql.Fragment.parenthesized (f.fragment table qualifier)) := by
  simp [fragment, fragments_eq_map]

/-! ## Parameters -/

mutual
/-- The parameters of a filter, from left to right. -/
def parameters : Filter → List FilterParameter
  | .compare _ _ value => [value]
  | .like _ pattern => [pattern]
  | .isNull _ _ => []
  | .between _ low high => [low, high]
  | .and items => parametersOf items
  | .or items => parametersOf items
  | .not item => item.parameters
/-- The parameters of some filters, in order. -/
def parametersOf : List Filter → List FilterParameter
  | [] => []
  | item :: rest => item.parameters ++ parametersOf rest
end

mutual
/-- The paths of a filter, from left to right. -/
def paths : Filter → List String
  | .compare path _ _ | .like path _ | .isNull path _ | .between path _ _ => [path]
  | .and items => pathsOf items
  | .or items => pathsOf items
  | .not item => item.paths
/-- The paths of some filters, in order. -/
def pathsOf : List Filter → List String
  | [] => []
  | item :: rest => item.paths ++ pathsOf rest
end

/-- The names of the parameters, in order. -/
def names (f : Filter) : List String := f.parameters.map (·.name)

theorem parametersOf_eq_flatMap (items : List Filter) : parametersOf items = items.flatMap parameters := by
  induction items with
  | nil => rfl
  | cons f items ih => simp [parametersOf, ih]

theorem pathsOf_eq_flatMap (items : List Filter) : pathsOf items = items.flatMap paths := by
  induction items with
  | nil => rfl
  | cons f items ih => simp [pathsOf, ih]

theorem names_connective (items : List Filter) :
    (parametersOf items).map (·.name) = items.flatMap names := by
  rw [parametersOf_eq_flatMap, List.map_flatMap]
  rfl

/-- A filter binds its parameters, each under its name. -/
theorem bindings_names (f : Filter) : (f.bindings table qualifier).map (·.1) = f.names := by
  induction f using Filter.induction with
  | compare path op value => rfl
  | like path pattern => rfl
  | isNull path negated => rfl
  | between path low high => rfl
  | and items ih | or items ih =>
    rw [names, parameters, names_connective, bindings, bindingsOf_eq_flatMap, List.map_flatMap]
    exact List.flatMap_congr ih
  | not item ih => exact ih

end ParamQuery.Filter

namespace ParamQuery

/-! ## Targets -/

theorem Table.mem_of_columnByMember? {table : Table} {member : String} {c : Column}
    (h : table.columnByMember? member = some c) : c ∈ table.columns.toList := by
  rw [Table.columnByMember?, Option.or_eq_some_iff] at h
  rcases h with h | ⟨-, h⟩
  · exact List.mem_of_find?_eq_some h
  · exact List.mem_of_find?_eq_some h

/-- A column, qualified by a table if one is given. -/
def columnFragment (qualifier : Option String) (name : String) : Sql.Fragment String :=
  match qualifier with
  | none => [.name name]
  | some t => Sql.Fragment.qualified t name

/-- The target of a path that starts from a column, or from no known one. -/
def ColumnPath.target (p : ColumnPath) (qualifier : Option String) (column? : Option Column) : PathTarget :=
  let column := columnFragment qualifier ((column?.map (·.dbName)).getD p.base)
  let steps := Sql.Fragment.traversal (p.segments.drop 1)
  match (column?.map (·.shape)).getD .scalar, p.isNested with
  | .jsonArray, true => { operand := .text "objects" :: steps, unnest := some column, jsonText := true }
  | .jsonObject, true => { operand := column ++ steps, jsonText := true }
  | _, _ => { operand := column }

/-- The column that a path means under a qualifier, if it is looked up. -/
def ColumnPath.found? (p : ColumnPath) (table : Table) (qualifier : Option String) : Option Column :=
  if qualifier.any (· != table.name) then none else table.columnByMember? p.base

theorem ColumnPath.resolve_eq (p : ColumnPath) (table : Table) (qualifier : Option String) :
    p.resolve table qualifier = p.target qualifier (p.found? table qualifier) := by
  cases qualifier with
  | none =>
    simp only [ColumnPath.resolve, ColumnPath.found?, Option.any_none]
    generalize (if false = true then none else table.columnByMember? p.base) = found
    cases found <;> rfl
  | some t =>
    simp only [ColumnPath.resolve, ColumnPath.found?, Option.any_some]
    generalize (if (t != table.name) = true then none else table.columnByMember? p.base) = found
    cases found <;> rfl

theorem ColumnPath.resolve_eq_target (p : ColumnPath) (table : Table) (qualifier : Option String) :
    ∃ column? : Option Column, (∀ c ∈ column?, c ∈ table.columns.toList) ∧
      p.resolve table qualifier = p.target qualifier column? := by
  refine ⟨p.found? table qualifier, fun c hc => ?_, p.resolve_eq table qualifier⟩
  unfold ColumnPath.found? at hc
  split at hc
  · cases hc
  · exact Table.mem_of_columnByMember? hc

/-- What a path can mean: a column, a value inside a JSON column, or a value
inside the elements of an array column. -/
theorem ColumnPath.resolve_cases (p : ColumnPath) (table : Table) (qualifier : Option String) :
    ∃ name, (name = p.base ∨ ∃ c ∈ table.columns.toList, name = c.dbName) ∧
      (p.resolve table qualifier = { operand := columnFragment qualifier name } ∨
        p.resolve table qualifier =
          { operand := columnFragment qualifier name ++ Sql.Fragment.traversal (p.segments.drop 1), jsonText := true } ∨
        p.resolve table qualifier =
          { operand := .text "objects" :: Sql.Fragment.traversal (p.segments.drop 1),
            unnest := some (columnFragment qualifier name), jsonText := true }) := by
  obtain ⟨column?, hmem, heq⟩ := p.resolve_eq_target table qualifier
  refine ⟨(column?.map (·.dbName)).getD p.base, ?_, ?_⟩
  · cases column? with
    | none => exact .inl rfl
    | some c => exact .inr ⟨c, hmem c rfl, rfl⟩
  · rw [heq, ColumnPath.target]
    cases (column?.map (·.shape)).getD .scalar <;> cases p.isNested <;> simp

/-- The predicate of a condition holds what the condition, the columns and the
way into them hold. -/
theorem PathTarget.mem_predicate {t : PathTarget} {condition : Sql.Fragment String} {token : Sql.Token String}
    (h : token ∈ t.predicate condition) :
    (∃ s, token = .text s) ∨ token ∈ t.operand ∨ (∃ column ∈ t.unnest, token ∈ column) ∨ token ∈ condition := by
  unfold PathTarget.predicate at h
  split at h
  · rcases List.mem_append.1 h with h | h
    · exact .inr (.inl h)
    · rcases List.mem_cons.1 h with rfl | h
      · exact .inl ⟨_, rfl⟩
      · exact .inr (.inr (.inr h))
  · rename_i column hcolumn
    simp only [List.mem_cons, List.mem_append, List.not_mem_nil, or_false] at h
    rcases h with (((rfl | h) | rfl | h) | rfl | h) | rfl
    · exact .inl ⟨_, rfl⟩
    · exact .inr (.inr (.inl ⟨column, hcolumn, h⟩))
    · exact .inl ⟨_, rfl⟩
    · exact .inr (.inl h)
    · exact .inl ⟨_, rfl⟩
    · exact .inr (.inr (.inr h))
    · exact .inl ⟨_, rfl⟩

/-! ## Segments -/

theorem pathSegments.mem_splitDots {cs : List Char} {s : String} (h : s ∈ pathSegments.splitDots cs) {c : Char}
    (hc : c ∈ s.toList) : c ∈ cs := by
  induction cs generalizing s with
  | nil =>
    simp only [pathSegments.splitDots, List.mem_singleton] at h
    simp [h] at hc
  | cons d cs ih =>
    unfold pathSegments.splitDots at h
    split at h
    · simp only [List.mem_singleton] at h
      simp [h] at hc
    · rename_i s' more heq
      rw [heq] at ih
      split at h
      · rcases List.mem_cons.1 h with rfl | h
        · simp at hc
        · exact List.mem_cons_of_mem _ (ih h hc)
      · rcases List.mem_cons.1 h with rfl | h
        · simp only [String.toList_append, List.mem_append] at hc
          rcases hc with hc | hc
          · rw [Char.toString_eq_singleton, String.toList_singleton, List.mem_singleton] at hc
            exact hc ▸ List.mem_cons_self
          · exact List.mem_cons_of_mem _ (ih (by simp) hc)
        · exact List.mem_cons_of_mem _ (ih (by simp [h]) hc)

/-- The segments of a path hold no character that the path does not hold. -/
theorem mem_of_mem_pathSegments {path s : String} (h : s ∈ pathSegments path) {c : Char} (hc : c ∈ s.toList) :
    c ∈ path.toList :=
  pathSegments.mem_splitDots (List.mem_of_mem_filter h) hc

namespace Sql.Fragment

theorem lacks_traversal {β : Type} {c : Char} {steps : List String} (h : ∀ s ∈ steps, c ∉ s.toList) :
    Lacks c (traversal steps : Fragment β) := by
  induction steps with
  | nil => simp [Lacks, traversal]
  | cons step rest ih =>
    have ih := ih fun s hs => h s (by simp [hs])
    have hstep := h step (by simp)
    cases rest with
    | nil => simpa [Lacks, traversal] using hstep
    | cons next rest =>
      intro s hs
      simp only [traversal, List.mem_cons, reduceCtorEq, false_or, Token.key.injEq] at hs
      rcases hs with hs | rfl | hs
      · exact ih s (.inl hs)
      · exact hstep
      · exact ih s (.inr hs)

end Sql.Fragment

/-! ## The SQL of a filter -/

theorem columnFragment_legible (qualifier : Option String) (name : String) :
    (columnFragment qualifier name).Legible := by
  cases qualifier with
  | none => exact .name _
  | some t => exact .qualified _ _

theorem slots_columnFragment (qualifier : Option String) (name : String) :
    (columnFragment qualifier name).slots = [] := by
  cases qualifier <;> rfl

/-- The operand of a target, and the array that it unnests. -/
theorem ColumnPath.resolve_legible (p : ColumnPath) (table : Table) (qualifier : Option String) :
    (p.resolve table qualifier).operand.Legible ∧
      ∀ column ∈ (p.resolve table qualifier).unnest, Sql.Fragment.Legible column := by
  obtain ⟨name, -, h⟩ := p.resolve_cases table qualifier
  have hcolumn := columnFragment_legible qualifier name
  have hsteps := Sql.Fragment.Legible.traversal (β := String) (p.segments.drop 1)
  rcases h with h | h | h
  · rw [h]; exact ⟨hcolumn, by simp⟩
  · rw [h]; exact ⟨hcolumn.append hsteps.1 hsteps.2, by simp⟩
  · rw [h]; exact ⟨.cons (by decide) hsteps.1, by simpa using hcolumn⟩

theorem ColumnPath.slots_resolve (p : ColumnPath) (table : Table) (qualifier : Option String) :
    (p.resolve table qualifier).operand.slots = [] ∧
      ∀ column ∈ (p.resolve table qualifier).unnest, Sql.Fragment.slots column = [] := by
  obtain ⟨name, -, h⟩ := p.resolve_cases table qualifier
  have hcolumn := slots_columnFragment qualifier name
  have hsteps : Sql.Fragment.slots (Sql.Fragment.traversal (p.segments.drop 1) : Sql.Fragment String) = [] :=
    Sql.Fragment.slots_traversal _
  rcases h with h | h | h
  · rw [h]; exact ⟨hcolumn, by simp⟩
  · rw [h]; exact ⟨by rw [Sql.Fragment.slots_append, hcolumn, hsteps, List.append_nil], by simp⟩
  · rw [h]; exact ⟨hsteps, by simpa using hcolumn⟩

theorem PathTarget.predicate_legible {t : PathTarget} (ht : t.operand.Legible)
    (hu : ∀ column ∈ t.unnest, Sql.Fragment.Legible column) {condition : Sql.Fragment String}
    (hc : condition.Legible) : (t.predicate condition).Legible := by
  unfold PathTarget.predicate
  split
  · exact ht.join (by decide) hc
  · rename_i column hcolumn
    have hinner := ((hu column hcolumn).join (s := ") as objects where ") (by decide)
      (ht.join (s := " ") (by decide) hc)).close (s := ")") (by decide)
    have hall := Sql.Fragment.Legible.cons (s := "exists (Select 1 from unnest(") (by decide) hinner
    simpa using hall

theorem PathTarget.slots_predicate {t : PathTarget} (ht : t.operand.slots = [])
    (hu : ∀ column ∈ t.unnest, Sql.Fragment.slots column = []) (condition : Sql.Fragment String) :
    (t.predicate condition).slots = condition.slots := by
  unfold PathTarget.predicate
  split
  · simp [ht, Sql.Token.slots]
  · rename_i column hcolumn
    simp [ht, hu column hcolumn, Sql.Token.slots]

namespace Filter

variable (table : Table) (qualifier : Option String)

theorem fragment_connective (items : List Filter) (h : ∀ f ∈ items, (f.fragment table qualifier).Legible) :
    ∀ F ∈ items.map (fun f => Sql.Fragment.parenthesized (f.fragment table qualifier)), F.Legible := by
  intro F hF
  obtain ⟨f, hf, rfl⟩ := List.mem_map.1 hF
  exact (h f hf).parenthesized

/-- The SQL of a filter is legible. -/
theorem fragment_legible (f : Filter) : (f.fragment table qualifier).Legible := by
  have hpredicate : ∀ (path : String) {condition : Sql.Fragment String}, condition.Legible →
      (((ColumnPath.parse path).resolve table qualifier).predicate condition).Legible := by
    intro path condition hc
    have ht := (ColumnPath.parse path).resolve_legible table qualifier
    exact PathTarget.predicate_legible ht.1 ht.2 hc
  induction f using Filter.induction with
  | compare path op value =>
    refine hpredicate path (.cons ?_ (.cons (by decide) (.slot _)))
    cases op <;> decide
  | like path pattern => exact hpredicate path (.cons (by decide) (.slot _))
  | isNull path negated => exact hpredicate path (.text (by cases negated <;> decide))
  | between path low high =>
    exact hpredicate path (.cons (by decide) ((Sql.Fragment.Legible.slot _).join (by decide) (.slot _)))
  | and items ih =>
    cases items with
    | nil => exact .text (by decide)
    | cons f items =>
      rw [fragment_and_cons]
      exact .separated (by decide) (fragment_connective _ _ _ ih)
  | or items ih =>
    cases items with
    | nil => exact .text (by decide)
    | cons f items =>
      rw [fragment_or_cons]
      exact .separated (by decide) (fragment_connective _ _ _ ih)
  | not item ih => exact .cons (by decide) (ih.close (by decide))

theorem slots_connective {items : List Filter}
    (h : ∀ f ∈ items, (f.fragment table qualifier).slots = f.names.map ("@" ++ ·)) (separator : String) :
    (Sql.Fragment.separated separator (items.map fun f =>
      Sql.Fragment.parenthesized (f.fragment table qualifier))).slots =
      ((parametersOf items).map (·.name)).map ("@" ++ ·) := by
  rw [Sql.Fragment.slots_separated, List.flatMap_map, names_connective, List.map_flatMap]
  refine List.flatMap_congr fun f hf => ?_
  rw [Sql.Fragment.slots_parenthesized, h f hf]

/-- The slots of a filter's SQL are the tokens of its parameters. -/
theorem slots_fragment (f : Filter) : (f.fragment table qualifier).slots = f.names.map ("@" ++ ·) := by
  have hpredicate : ∀ (path : String) (condition : Sql.Fragment String),
      (((ColumnPath.parse path).resolve table qualifier).predicate condition).slots = condition.slots := by
    intro path condition
    have ht := (ColumnPath.parse path).slots_resolve table qualifier
    exact PathTarget.slots_predicate ht.1 ht.2 condition
  induction f using Filter.induction with
  | compare path op value => exact hpredicate path _
  | like path pattern => exact hpredicate path _
  | isNull path negated => exact hpredicate path _
  | between path low high => exact hpredicate path _
  | and items ih =>
    cases items with
    | nil => rfl
    | cons f items =>
      rw [fragment_and_cons]
      exact slots_connective _ _ ih _
  | or items ih =>
    cases items with
    | nil => rfl
    | cons f items =>
      rw [fragment_or_cons]
      exact slots_connective _ _ ih _
  | not item ih =>
    rw [fragment, names, parameters]
    simpa [Sql.Token.slots, names] using ih

theorem lacks_columnFragment {c : Char} {qualifier : Option String} {name : String}
    (hq : ∀ t ∈ qualifier, c ∉ t.toList) (hname : c ∉ name.toList) : (columnFragment qualifier name).Lacks c := by
  cases qualifier with
  | none => simpa [columnFragment, Sql.Fragment.Lacks] using hname
  | some t =>
    intro s hs
    simp only [columnFragment, Sql.Fragment.qualified, List.mem_cons, List.not_mem_nil, or_false, reduceCtorEq,
      false_or, Sql.Token.name.injEq] at hs
    rcases hs with rfl | rfl
    · exact hq _ rfl
    · exact hname

/-- A character that neither the table, nor a column, nor a path holds is in no
name and no key of the target. -/
theorem lacks_resolve {c : Char} (hq : ∀ t ∈ qualifier, c ∉ t.toList)
    (hcolumns : ∀ k ∈ table.columns.toList, c ∉ k.dbName.toList) {path : String} (hpath : c ∉ path.toList) :
    ((ColumnPath.parse path).resolve table qualifier).operand.Lacks c ∧
      ∀ column ∈ ((ColumnPath.parse path).resolve table qualifier).unnest, Sql.Fragment.Lacks c column := by
  have hsegments : ∀ s ∈ (ColumnPath.parse path).segments, c ∉ s.toList :=
    fun s hs hc => hpath (mem_of_mem_pathSegments hs hc)
  have hsteps : Sql.Fragment.Lacks c
      (Sql.Fragment.traversal ((ColumnPath.parse path).segments.drop 1) : Sql.Fragment String) :=
    Sql.Fragment.lacks_traversal fun s hs => hsegments s (List.mem_of_mem_drop hs)
  obtain ⟨name, hname, h⟩ := (ColumnPath.parse path).resolve_cases table qualifier
  have hfree : c ∉ name.toList := by
    rcases hname with rfl | ⟨k, hk, rfl⟩
    · unfold ColumnPath.base
      cases hs : (ColumnPath.parse path).segments with
      | nil => simp
      | cons s rest => exact hsegments s (by simp [hs])
    · exact hcolumns k hk
  have hcolumn := lacks_columnFragment hq hfree
  rcases h with h | h | h
  · rw [h]; exact ⟨hcolumn, by simp⟩
  · rw [h]
    refine ⟨fun s hs => ?_, by simp⟩
    simp only [List.mem_append] at hs
    rcases hs with (hs | hs) | hs | hs
    · exact hcolumn s (.inl hs)
    · exact hsteps s (.inl hs)
    · exact hcolumn s (.inr hs)
    · exact hsteps s (.inr hs)
  · rw [h]
    refine ⟨fun s hs => hsteps s (by simpa using hs), by simpa using hcolumn⟩

theorem lacks_separated {c : Char} {separator : String} {fs : List (Sql.Fragment String)}
    (h : ∀ f ∈ fs, Sql.Fragment.Lacks c f) : (Sql.Fragment.separated separator fs).Lacks c := by
  induction fs with
  | nil => simp [Sql.Fragment.Lacks, Sql.Fragment.separated]
  | cons f fs ih =>
    have hf := h f (by simp)
    have ih := ih fun g hg => h g (by simp [hg])
    cases fs with
    | nil => exact hf
    | cons g fs =>
      intro s hs
      simp only [Sql.Fragment.separated, List.mem_append, List.mem_cons, reduceCtorEq, false_or] at hs
      rcases hs with (hs | hs) | hs | hs
      · exact hf s (.inl hs)
      · exact ih s (.inl hs)
      · exact hf s (.inr hs)
      · exact ih s (.inr hs)

theorem lacks_parenthesized {c : Char} {f : Sql.Fragment String} (h : Sql.Fragment.Lacks c f) :
    (Sql.Fragment.parenthesized f).Lacks c := by
  intro s hs
  exact h s (by simpa [Sql.Fragment.parenthesized] using hs)

/-- **A character stays out of the names in a filter's SQL** if it is not in
the table, in a column or in a path. -/
theorem fragment_lacks {c : Char} (hq : ∀ t ∈ qualifier, c ∉ t.toList)
    (hcolumns : ∀ k ∈ table.columns.toList, c ∉ k.dbName.toList) (f : Filter)
    (hpaths : ∀ path ∈ f.paths, c ∉ path.toList) : (f.fragment table qualifier).Lacks c := by
  have hpredicate : ∀ (path : String) (condition : Sql.Fragment String), c ∉ path.toList →
      (∀ s, Sql.Token.name s ∉ condition ∧ Sql.Token.key s ∉ condition) →
      (((ColumnPath.parse path).resolve table qualifier).predicate condition).Lacks c := by
    intro path condition hpath hcondition s hs
    obtain ⟨hoperand, hunnest⟩ := lacks_resolve table qualifier hq hcolumns hpath
    rcases hs with hs | hs
    · rcases PathTarget.mem_predicate hs with ⟨_, h⟩ | h | ⟨column, hcolumn, h⟩ | h
      · cases h
      · exact hoperand s (.inl h)
      · exact hunnest column hcolumn s (.inl h)
      · exact absurd h (hcondition s).1
    · rcases PathTarget.mem_predicate hs with ⟨_, h⟩ | h | ⟨column, hcolumn, h⟩ | h
      · cases h
      · exact hoperand s (.inr h)
      · exact hunnest column hcolumn s (.inr h)
      · exact absurd h (hcondition s).2
  have hitems : ∀ (separator : String) (items : List Filter),
      (∀ f ∈ items, (∀ path ∈ f.paths, c ∉ path.toList) → (f.fragment table qualifier).Lacks c) →
      (∀ path ∈ pathsOf items, c ∉ path.toList) →
      (Sql.Fragment.separated separator (items.map fun f =>
        Sql.Fragment.parenthesized (f.fragment table qualifier))).Lacks c := by
    intro separator items ih hpaths
    rw [pathsOf_eq_flatMap] at hpaths
    refine lacks_separated fun F hF => ?_
    obtain ⟨f, hf, rfl⟩ := List.mem_map.1 hF
    exact lacks_parenthesized (ih f hf fun path hpath => hpaths path (List.mem_flatMap.2 ⟨f, hf, hpath⟩))
  induction f using Filter.induction with
  | compare path op value =>
    exact hpredicate path _ (hpaths path (by simp [paths])) (by simp [FilterParameter.token])
  | like path pattern =>
    exact hpredicate path _ (hpaths path (by simp [paths])) (by simp [FilterParameter.token])
  | isNull path negated => exact hpredicate path _ (hpaths path (by simp [paths])) (by simp)
  | between path low high =>
    exact hpredicate path _ (hpaths path (by simp [paths])) (by simp [FilterParameter.token])
  | and items ih =>
    cases items with
    | nil => simp [fragment, Sql.Fragment.Lacks]
    | cons f items =>
      rw [fragment_and_cons]
      exact hitems _ _ ih hpaths
  | or items ih =>
    cases items with
    | nil => simp [fragment, Sql.Fragment.Lacks]
    | cons f items =>
      rw [fragment_or_cons]
      exact hitems _ _ ih hpaths
  | not item ih =>
    intro s hs
    exact ih hpaths s (by simpa [fragment] using hs)

end Filter

end ParamQuery
