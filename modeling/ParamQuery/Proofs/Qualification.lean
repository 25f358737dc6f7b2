/-
Filters with and without a table in front of their columns. A filter binds the
parameters of its leaves from left to right (`Filter.bindings_eq_leaves`), and the
names in its SQL are the columns of its leaves (`Filter.identifiers_fragment`).
The described table only puts its name in front of each of them
(`Filter.fragment_own`). Under another table nothing is looked up: no leaf is text
out of a document, and no array is taken apart.

`filter_commands` puts this together for the commands of a filter.
-/
import ParamQuery.Proofs.FilterAgreement
import ParamQuery.Proofs.Settling

namespace ParamQuery

open Sql

/-! ## Leaves -/

namespace Filter

mutual
/-- The conditions of a filter from left to right, each as its path and its
parameters. -/
def leaves : Filter → List (String × List FilterParameter)
  | .compare path _ value => [(path, [value])]
  | .like path pattern => [(path, [pattern])]
  | .isNull path _ => [(path, [])]
  | .between path low high => [(path, [low, high])]
  | .and items => leavesOf items
  | .or items => leavesOf items
  | .not item => item.leaves
/-- The comparisons of some filters, in order. -/
def leavesOf : List Filter → List (String × List FilterParameter)
  | [] => []
  | item :: rest => item.leaves ++ leavesOf rest
end

theorem leavesOf_eq_flatMap (items : List Filter) : leavesOf items = items.flatMap leaves := by
  induction items with
  | nil => rfl
  | cons f items ih => simp [leavesOf, ih]

/-- A filter binds the parameters of its leaves, each as its path asks for. -/
theorem bindings_eq_leaves (table : Table) (qualifier : Option String) (f : Filter) :
    f.bindings table qualifier = f.leaves.flatMap fun leaf =>
      leaf.2.map (·.binding ((ColumnPath.parse leaf.1).resolve table qualifier)) := by
  induction f using Filter.induction with
  | compare path op value => rfl
  | like path pattern => rfl
  | isNull path negated => rfl
  | between path low high => rfl
  | and items ih | or items ih =>
    rw [bindings, leaves, bindingsOf_eq_flatMap, leavesOf_eq_flatMap, List.flatMap_assoc]
    exact List.flatMap_congr ih
  | not item ih => exact ih

end Filter

/-! ## Names in fragments -/

namespace Sql

variable {β : Type}

/-- The name that a token is, if it is one. -/
def Token.identifier? : Token β → Option String
  | .name s => some s
  | _ => none

/-- The names of a fragment, from left to right. -/
def Fragment.identifiers (f : Fragment β) : List String := f.filterMap Token.identifier?

/-- The token, a name with the table in front of it. -/
def Token.qualifiedBy (table : String) : Token β → Fragment β
  | .name s => Fragment.qualified table s
  | t => [t]

/-- The fragment with a table and a dot in front of each name. -/
def Fragment.qualifiedBy (table : String) (f : Fragment β) : Fragment β := f.flatMap (Token.qualifiedBy table)

namespace Fragment

variable {table : String}

@[simp] theorem identifiers_nil : identifiers ([] : Fragment β) = [] := rfl

@[simp] theorem identifiers_append (f g : Fragment β) : identifiers (f ++ g) = identifiers f ++ identifiers g :=
  List.filterMap_append

@[simp] theorem identifiers_text (s : String) (f : Fragment β) : identifiers (.text s :: f) = identifiers f := rfl

@[simp] theorem qualifiedBy_nil : qualifiedBy table ([] : Fragment β) = [] := rfl

@[simp] theorem qualifiedBy_append (f g : Fragment β) :
    qualifiedBy table (f ++ g) = qualifiedBy table f ++ qualifiedBy table g := List.flatMap_append

@[simp] theorem qualifiedBy_text (s : String) (f : Fragment β) :
    qualifiedBy table (.text s :: f) = .text s :: qualifiedBy table f := rfl

theorem identifiers_separated (s : String) (fs : List (Fragment β)) :
    identifiers (separated s fs) = fs.flatMap identifiers := by
  induction fs with
  | nil => rfl
  | cons f fs ih =>
    cases fs with
    | nil => simp [separated]
    | cons g fs => simp [separated, ih]

theorem qualifiedBy_separated (s : String) (fs : List (Fragment β)) :
    qualifiedBy table (separated s fs) = separated s (fs.map (qualifiedBy table)) := by
  induction fs with
  | nil => rfl
  | cons f fs ih =>
    cases fs with
    | nil => rfl
    | cons g fs =>
      rw [List.map_cons] at ih
      simp only [separated, qualifiedBy_append, qualifiedBy_text, ih, List.map_cons]

theorem identifiers_parenthesized (f : Fragment β) : identifiers (parenthesized f) = identifiers f := by
  simp [parenthesized]

theorem qualifiedBy_parenthesized (f : Fragment β) :
    qualifiedBy table (parenthesized f) = parenthesized (qualifiedBy table f) := by
  simp [parenthesized]

/-- The way into a document has no names. -/
theorem identifiers_traversal (steps : List String) : identifiers (traversal steps : Fragment β) = [] := by
  induction steps with
  | nil => rfl
  | cons step rest ih =>
    cases rest with
    | nil => rfl
    | cons next rest => exact ih

/-- Without names nothing is put in front of any. -/
theorem qualifiedBy_of_identifiers {f : Fragment β} (h : identifiers f = []) : qualifiedBy table f = f := by
  induction f with
  | nil => rfl
  | cons t f ih =>
    cases t with
    | name s => cases h
    | text s | key s | slot b => exact congrArg (List.cons _) (ih h)

end Fragment

end Sql

/-! ## Targets -/

/-- Whether a path leads into a column that holds documents. -/
def Table.leadsIntoDocument (table : Table) (path : List String) : Bool :=
  1 < path.length && (table.columnByMember? (path.headD "")).any (·.shape.isJson)

theorem ColumnPath.found?_own (p : ColumnPath) (table : Table) :
    p.found? table (some table.name) = p.found? table none := by
  simp [ColumnPath.found?]

theorem ColumnPath.found?_foreign (p : ColumnPath) {table : Table} {t : String} (h : t ≠ table.name) :
    p.found? table (some t) = none := by
  simp [ColumnPath.found?, h]

/-- The target with a table in front of its column. -/
def PathTarget.qualifiedBy (table : String) (t : PathTarget) : PathTarget where
  operand := t.operand.qualifiedBy table
  unnest := t.unnest.map (Fragment.qualifiedBy table)
  jsonText := t.jsonText

theorem ColumnPath.target_qualified (p : ColumnPath) (t : String) (column? : Option Column) :
    p.target (some t) column? = (p.target none column?).qualifiedBy t := by
  have hsteps : Fragment.qualifiedBy t (Fragment.traversal (p.segments.drop 1) : Fragment String) =
      Fragment.traversal (p.segments.drop 1) :=
    Fragment.qualifiedBy_of_identifiers (Fragment.identifiers_traversal _)
  have hcolumn : ∀ name, columnFragment (some t) name = Fragment.qualifiedBy t (columnFragment none name) :=
    fun _ => rfl
  unfold ColumnPath.target
  generalize Fragment.traversal (p.segments.drop 1) = steps at hsteps
  cases (column?.map (·.shape)).getD .scalar <;> cases p.isNested <;>
    simp [PathTarget.qualifiedBy, hcolumn, hsteps]

/-- The one name of a target is that of its column. -/
theorem PathTarget.identifiers_predicate {p : ColumnPath} {column? : Option Column} {condition : Fragment String}
    (h : condition.identifiers = []) :
    ((p.target none column?).predicate condition).identifiers = [(column?.map (·.dbName)).getD p.base] := by
  have hsteps := Fragment.identifiers_traversal (β := String) (p.segments.drop 1)
  have hcolumn : ∀ name, (columnFragment none name).identifiers = [name] := fun _ => rfl
  unfold ColumnPath.target
  generalize Fragment.traversal (p.segments.drop 1) = steps at hsteps
  cases (column?.map (·.shape)).getD .scalar <;> cases p.isNested <;>
    simp [PathTarget.predicate, hcolumn, hsteps, h]

theorem PathTarget.predicate_qualified (target : PathTarget) (t : String) {condition : Fragment String}
    (h : condition.identifiers = []) :
    (target.qualifiedBy t).predicate condition = (target.predicate condition).qualifiedBy t := by
  obtain ⟨operand, unnest, jsonText⟩ := target
  cases unnest <;>
    simp [PathTarget.qualifiedBy, PathTarget.predicate, Fragment.qualifiedBy_of_identifiers h]

/-- Only a path into a document is text, and only if it is looked up. -/
theorem ColumnPath.jsonText_target (p : ColumnPath) (qualifier : Option String) (column? : Option Column) :
    (p.target qualifier column?).jsonText = (p.isNested && column?.any (·.shape.isJson)) := by
  cases column? with
  | none => cases p.isNested <;> rfl
  | some c =>
    simp only [ColumnPath.target, Option.map_some, Option.getD_some, Option.any_some, Shape.isJson]
    cases c.shape <;> cases p.isNested <;> rfl

/-! ## The SQL of a filter -/

namespace Sql.Fragment

variable {β : Type} {word : String}

/-- Whether a text holds a word. -/
def holds (word s : String) : Bool := word.toList <:+: s.toList

/-- Whether one of the texts in a fragment holds a word. -/
def Mentions (word : String) (f : Fragment β) : Prop := ∃ s, Token.text s ∈ f ∧ holds word s

@[simp] theorem mentions_nil : ¬Mentions word ([] : Fragment β) := by simp [Mentions]

@[simp] theorem mentions_text (s : String) (f : Fragment β) :
    Mentions word (.text s :: f) ↔ holds word s ∨ Mentions word f := by simp [Mentions]

@[simp] theorem mentions_name (s : String) (f : Fragment β) :
    Mentions word (.name s :: f) ↔ Mentions word f := by simp [Mentions]

@[simp] theorem mentions_slot (b : β) (f : Fragment β) : Mentions word (.slot b :: f) ↔ Mentions word f := by
  simp [Mentions]

@[simp] theorem mentions_append (f g : Fragment β) :
    Mentions word (f ++ g) ↔ Mentions word f ∨ Mentions word g := by
  simp [Mentions, or_and_right, exists_or]

theorem mentions_separated {separator : String} {fs : List (Fragment β)} (h : Mentions word (separated separator fs)) :
    holds word separator ∨ ∃ f ∈ fs, Mentions word f := by
  induction fs with
  | nil => exact absurd h mentions_nil
  | cons f fs ih =>
    cases fs with
    | nil => exact .inr ⟨f, by simp, h⟩
    | cons g fs =>
      rw [separated, mentions_append, mentions_text] at h
      · rcases h with h | h | h
        · exact .inr ⟨f, by simp, h⟩
        · exact .inl h
        · refine (ih h).imp_right fun hrest => ?_
          obtain ⟨f', hf', h⟩ := hrest
          exact ⟨f', List.mem_cons_of_mem _ hf', h⟩
      · simp

end Sql.Fragment

namespace Filter

/-- The items of a connective in parentheses. -/
def joined (table : Table) (qualifier : Option String) (separator : String) (items : List Filter) : Fragment String :=
  Fragment.separated separator (items.map fun f => Fragment.parenthesized (f.fragment table qualifier))

/-- What stands behind a path is the same under every table. -/
structure IsCondition (f : Fragment String) : Prop where
  identifiers : f.identifiers = []
  quiet : ¬f.Mentions "unnest"

/-- Induction over filters by the form of their SQL: a leaf is a predicate on its
path, and a connective joins its items or is a truth value. -/
theorem fragment_induction {P : Filter → Prop}
    (leaf : ∀ f path condition, f.leaves.map (·.1) = [path] → IsCondition condition →
      (∀ table qualifier, f.fragment table qualifier =
        ((ColumnPath.parse path).resolve table qualifier).predicate condition) → P f)
    (constant : ∀ f s, f.leaves = [] → Fragment.holds "unnest" s = false →
      (∀ table qualifier, f.fragment table qualifier = [.text s]) → P f)
    (connective : ∀ f separator items, f.leaves = leavesOf items → Fragment.holds "unnest" separator = false →
      (∀ table qualifier, f.fragment table qualifier = joined table qualifier separator items) →
      (∀ item ∈ items, P item) → P f)
    (not : ∀ item, P item → P (.not item)) (f : Filter) : P f := by
  induction f using Filter.induction with
  | compare path op value =>
    refine leaf _ path _ rfl ⟨rfl, ?_⟩ fun _ _ => rfl
    cases op <;> simp [FilterParameter.token, CompareOp.symbol] <;> decide
  | like path pattern =>
    refine leaf _ path _ rfl ⟨rfl, ?_⟩ fun _ _ => rfl
    simp [FilterParameter.token]
    decide
  | isNull path negated =>
    refine leaf _ path _ rfl ⟨rfl, ?_⟩ fun _ _ => rfl
    cases negated <;> simp <;> decide
  | between path low high =>
    refine leaf _ path _ rfl ⟨rfl, ?_⟩ fun _ _ => rfl
    simp [FilterParameter.token]
    decide
  | and items ih =>
    -- without items it is a truth value
    cases items with
    | nil => exact constant _ _ rfl (by decide) fun _ _ => rfl
    | cons f items =>
      exact connective _ " AND " (f :: items) rfl (by decide) (fun _ _ => fragment_and_cons _ _ _ _) ih
  | or items ih =>
    cases items with
    | nil => exact constant _ _ rfl (by decide) fun _ _ => rfl
    | cons f items =>
      exact connective _ " OR " (f :: items) rfl (by decide) (fun _ _ => fragment_or_cons _ _ _ _) ih
  | not item ih => exact not item ih

variable (table : Table)

/-- **The described table is put in front of each name**, and nothing else changes. -/
theorem fragment_own (f : Filter) :
    f.fragment table (some table.name) = (f.fragment table none).qualifiedBy table.name := by
  induction f using fragment_induction with
  | leaf f path condition _ hcondition hfragment =>
    -- both find the same column
    rw [hfragment, hfragment, ColumnPath.resolve_eq, ColumnPath.resolve_eq, ColumnPath.found?_own,
      ColumnPath.target_qualified, PathTarget.predicate_qualified _ _ hcondition.identifiers]
  | constant f s _ _ hfragment =>
    rw [hfragment, hfragment]
    rfl
  | connective f separator items _ _ hfragment ih =>
    rw [hfragment, hfragment, joined, joined, Fragment.qualifiedBy_separated, List.map_map]
    refine congrArg _ (List.map_congr_left fun f hf => ?_)
    rw [ih f hf, Function.comp_apply, Fragment.qualifiedBy_parenthesized]
  | not item ih => simp [fragment, ih]

/-- The names in the SQL of a filter are the columns of its leaves. -/
theorem identifiers_fragment (f : Filter) :
    (f.fragment table none).identifiers = f.leaves.map fun leaf => table.startName (pathSegments leaf.1) := by
  induction f using fragment_induction with
  | leaf f path condition hleaves hcondition hfragment =>
    have hstart : (f.leaves.map fun leaf => table.startName (pathSegments leaf.1)) =
        (f.leaves.map (·.1)).map fun path => table.startName (pathSegments path) := by
      rw [List.map_map]
      rfl
    rw [hfragment, ColumnPath.resolve_eq, PathTarget.identifiers_predicate hcondition.identifiers, hstart, hleaves]
    rfl
  | constant f s hleaves _ hfragment =>
    rw [hfragment, hleaves]
    rfl
  | connective f separator items hleaves _ hfragment ih =>
    rw [hfragment, joined, Fragment.identifiers_separated, List.flatMap_map, hleaves, leavesOf_eq_flatMap,
      List.map_flatMap]
    refine List.flatMap_congr fun f hf => ?_
    rw [Fragment.identifiers_parenthesized, ih f hf]
  | not item ih => simpa [fragment, leaves] using ih

/-! ## Other tables -/

/-- Under another table no array is taken apart. -/
theorem fragment_foreign {t : String} (h : t ≠ table.name) (f : Filter) :
    ¬(f.fragment table (some t)).Mentions "unnest" := by
  induction f using fragment_induction with
  | leaf f path condition _ hcondition hfragment =>
    rw [hfragment, ColumnPath.resolve_eq, ColumnPath.found?_foreign _ h]
    have htexts : Fragment.holds "unnest" "." = false ∧ Fragment.holds "unnest" " " = false := by decide
    simp [ColumnPath.target, columnFragment, Fragment.qualified, PathTarget.predicate, hcondition.quiet, htexts]
  | constant f s _ hs hfragment => simpa [hfragment] using hs
  | connective f separator items _ hseparator hfragment ih =>
    rw [hfragment, joined]
    intro hmentions
    obtain ⟨F, hF, hmentions⟩ := (Fragment.mentions_separated hmentions).resolve_left (by simp [hseparator])
    obtain ⟨f, hf, rfl⟩ := List.mem_map.1 hF
    have htexts : Fragment.holds "unnest" "(" = false ∧ Fragment.holds "unnest" ")" = false := by decide
    simp [Fragment.parenthesized, htexts, ih f hf] at hmentions
  | not item ih =>
    have htexts : Fragment.holds "unnest" "NOT (" = false ∧ Fragment.holds "unnest" ")" = false := by decide
    simp [fragment, htexts, ih]

end Filter

/-! ## Commands -/

/-- The parameters of a filter from left to right, bound as text where their path
asks for it. -/
def Filter.leafEntries (asText : String → Bool) (f : Filter) : List Entry :=
  f.leaves.flatMap fun leaf => leaf.2.map fun p => (p.name, boundAs p.value (asText leaf.1))

theorem Filter.bindings_eq_leafEntries (f : Filter) (table : Table) (qualifier : Option String) :
    f.bindings table qualifier = f.leafEntries fun path =>
      ((ColumnPath.parse path).resolve table qualifier).jsonText := f.bindings_eq_leaves table qualifier

/-- **The commands of a filter.** It binds the parameters of its leaves from left to
right, as text where a path leads into a document, and these are the slots of its
text. With the described table in front it binds the same, and its text has the
table and a dot in front of each name, which are the columns of its leaves. With
another table in front nothing is bound as text, and no array is taken apart. -/
theorem filter_commands (table : Table) {f : Filter} (h : f.names.Nodup) :
    (f.command table none).parameters.toList =
        f.leafEntries (fun path => table.leadsIntoDocument (pathSegments path)) ∧
      (f.command table (some table.name)).parameters = (f.command table none).parameters ∧
      (f.command table none).text = (f.fragment table none).render ∧
      (f.fragment table none).identifiers = f.leaves.map (fun leaf => table.startName (pathSegments leaf.1)) ∧
      (f.command table (some table.name)).text = ((f.fragment table none).qualifiedBy table.name).render ∧
      (∀ t, t ≠ table.name → (f.command table (some t)).parameters.toList = f.leafEntries (fun _ => false) ∧
        (f.command table (some t)).text = (f.fragment table (some t)).render ∧
        ¬(f.fragment table (some t)).Mentions "unnest") ∧
      ∀ qualifier, (f.fragment table qualifier).slots =
        (f.command table qualifier).parameters.names.map ("@" ++ ·) := by
  -- the column that a path finds, if any, is all that its parameters depend on
  have hentries : ∀ qualifier, (f.command table qualifier).parameters.toList = f.leafEntries fun path =>
      (ColumnPath.parse path).isNested && ((ColumnPath.parse path).found? table qualifier).any (·.shape.isJson) := by
    intro qualifier
    rw [Filter.parameters_command _ _ h, Filter.bindings_eq_leafEntries]
    refine congrArg (f.leafEntries ·) (funext fun path => ?_)
    rw [ColumnPath.resolve_eq, ColumnPath.jsonText_target]
  have hown : (f.command table (some table.name)).parameters.toList = (f.command table none).parameters.toList := by
    rw [hentries, hentries]
    simp only [ColumnPath.found?_own]
  refine ⟨hentries none, congrArg Parameters.mk hown, rfl, f.identifiers_fragment table,
    congrArg Fragment.render (f.fragment_own table), fun t ht => ⟨?_, rfl, f.fragment_foreign table ht⟩,
    fun qualifier => ?_⟩
  · rw [hentries]
    simp only [ColumnPath.found?_foreign _ ht, Option.any_none, Bool.and_false]
  · rw [Filter.slots_fragment, Filter.names_command _ _ h]

/-- People, with a document each and an array of documents. -/
def peopleTable : Table where
  name := "people"
  columns := ⟨[{ dbName := "age", type := .integer }, { dbName := "address", type := .jsonb },
    { dbName := "tags", type := .jsonbArray }, { dbName := "full_name", memberName := some "Name" }]⟩

/-- Conditions on a scalar, inside an array, inside a document and on a path that
leads nowhere. -/
def mixedFilter : Filter :=
  .and [.between "age" ⟨"low", .int 18⟩ ⟨"high", .int 65⟩,
    .not (.or [.compare "tags.0.name" .equal ⟨"tag", .string "red"⟩, .like "address.city" ⟨"city", .string "B%"⟩,
      .isNull "Name.first" false])]

/-- The same parameters with and without the table, and nothing as text under
another one. -/
theorem mixedFilter_commands :
    mixedFilter.names.Nodup ∧
      (mixedFilter.command peopleTable none).parameters.toList = [("low", ⟨.int 18, none⟩), ("high", ⟨.int 65, none⟩),
        ("tag", ⟨.string "red", some .text⟩), ("city", ⟨.string "B%", some .text⟩)] ∧
      (mixedFilter.command peopleTable (some "people")).parameters =
        (mixedFilter.command peopleTable none).parameters ∧
      (mixedFilter.fragment peopleTable none).identifiers = ["age", "tags", "address", "full_name"] ∧
      (mixedFilter.command peopleTable (some "people")).text =
        ((mixedFilter.fragment peopleTable none).qualifiedBy "people").render ∧
      (mixedFilter.command peopleTable (some "orders")).parameters.toList = [("low", ⟨.int 18, none⟩),
        ("high", ⟨.int 65, none⟩), ("tag", ⟨.string "red", none⟩), ("city", ⟨.string "B%", none⟩)] ∧
      ¬(mixedFilter.fragment peopleTable (some "orders")).Mentions "unnest" := by
  have hnodup : mixedFilter.names.Nodup := by decide
  obtain ⟨hentries, hown, -, hnames, htext, hforeign, -⟩ := filter_commands peopleTable hnodup
  obtain ⟨hothers, -, hquiet⟩ := hforeign "orders" (by decide)
  exact ⟨hnodup, hentries.trans rfl, hown, hnames.trans rfl, htext, hothers.trans rfl, hquiet⟩

end ParamQuery
