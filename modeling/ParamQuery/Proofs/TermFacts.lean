/-
Facts about SQL terms that hold whatever their slots are: the lists of a term
written with `map` and `flatMap`, induction over terms and the statements
inside them, the slots of a term in visiting order, and replacing every slot.

A term and its image under `Term.map` are written by the same tokens
(`Term.fragment_map`), so what is proved of the tokens of one carries over to
the other.
-/
import ParamQuery.Sql.Term
import Mathlib.Data.List.Basic

namespace ParamQuery.Sql

variable {β γ δ : Type}

/-! ## Lists inside terms -/

theorem termFragments_eq_map (ts : List (Term β)) : termFragments ts = ts.map Term.fragment := by
  induction ts with
  | nil => rfl
  | cons t ts ih => simp [termFragments, ih]

/-- The tokens of one arm. -/
def Arm.fragment (a : Arm β) : Fragment β :=
  Token.text " WHEN " :: guardFragment (a.guards.map Term.fragment) ++ Token.text " THEN " :: a.value.fragment

theorem armFragments_eq_flatMap (arms : List (Arm β)) : armFragments arms = arms.flatMap Arm.fragment := by
  induction arms with
  | nil => rfl
  | cons a arms ih =>
    obtain ⟨guards, value⟩ := a
    simp [armFragments, Arm.fragment, termFragments_eq_map, ih]

/-- The tokens of one join. -/
def JoinOn.fragment (j : JoinOn β) : Fragment β :=
  [Token.text j.keyword, Token.text " ", Token.name j.table, Token.text " ON "] ++ j.outer.fragment ++
    Token.text " = " :: j.inner.fragment

theorem joinFragments_eq_map (js : List (JoinOn β)) : joinFragments js = js.map JoinOn.fragment := by
  induction js with
  | nil => rfl
  | cons j js ih =>
    obtain ⟨keyword, table, outer, inner⟩ := j
    simp [joinFragments, JoinOn.fragment, ih]

/-- The tokens of one sort key. -/
def SortTerm.fragment (k : SortTerm β) : Fragment β := k.key.fragment ++ [Token.text " ", Token.text k.keyword]

theorem sortFragments_eq_map (ks : List (SortTerm β)) : sortFragments ks = ks.map SortTerm.fragment := by
  induction ks with
  | nil => rfl
  | cons k ks ih =>
    obtain ⟨key, keyword⟩ := k
    simp [sortFragments, SortTerm.fragment, ih]

/-! ## Induction -/

/-- A property of every term that a statement is made of. -/
structure Select.All (P : Term β → Prop) (s : Select β) : Prop where
  items : P s.items
  joins : ∀ j ∈ s.joins, P j.outer ∧ P j.inner
  conditions : ∀ t ∈ s.conditions, P t
  groupBy : ∀ t ∈ s.groupBy, P t
  orderBy : ∀ k ∈ s.orderBy, P k.key

section Induction

set_option linter.unusedSectionVars false

variable {P : Term β → Prop}
  (slot : ∀ b, P (.slot b))
  (table : ∀ name, P (.table name))
  (allColumns : ∀ table, P (.allColumns table))
  (column : ∀ qualifier name steps, P qualifier → P (.column qualifier name steps))
  (countAll : P .countAll)
  (labelled : ∀ t label, P t → P (.labelled t label))
  (list : ∀ items, (∀ t ∈ items, P t) → P (.list items))
  (operation : ∀ left op right, P left → P right → P (.operation left op right))
  (nullTest : ∀ t negated, P t → P (.nullTest t negated))
  (negation : ∀ t, P t → P (.negation t))
  (paren : ∀ t, P t → P (.paren t))
  (lengthOf : ∀ t, P t → P (.lengthOf t))
  (call : ∀ template arguments, (∀ t ∈ arguments, P t) → P (.call template arguments))
  (caseWhen : ∀ arms otherwise, (∀ a ∈ arms, (∀ t ∈ a.guards, P t) ∧ P a.value) → P otherwise →
    P (.caseWhen arms otherwise))
  (groupCount : ∀ table copy inner outer, P inner → P outer → P (.groupCount table copy inner outer))
  (subquery : ∀ s : Select β, s.All P → P (.subquery s))

include slot table allColumns column countAll labelled list operation nullTest negation paren
  lengthOf call caseWhen groupCount subquery

mutual
/-- Induction over terms, with the terms of a list or of a statement taken
together. -/
theorem Term.induction : ∀ t, P t
  | .slot b => slot b
  | .table name => table name
  | .allColumns t => allColumns t
  | .column qualifier _ _ => column _ _ _ (Term.induction qualifier)
  | .countAll => countAll
  | .labelled t _ => labelled _ _ (Term.induction t)
  | .list items => list _ (termsInduction items)
  | .operation left _ right => operation _ _ _ (Term.induction left) (Term.induction right)
  | .nullTest t _ => nullTest _ _ (Term.induction t)
  | .negation t => negation _ (Term.induction t)
  | .paren t => paren _ (Term.induction t)
  | .lengthOf t => lengthOf _ (Term.induction t)
  | .call _ arguments => call _ _ (termsInduction arguments)
  | .caseWhen arms otherwise => caseWhen _ _ (armsInduction arms) (Term.induction otherwise)
  | .groupCount _ _ inner outer => groupCount _ _ _ _ (Term.induction inner) (Term.induction outer)
  | .subquery s => subquery _ (selectInduction s)
theorem termsInduction : ∀ ts : List (Term β), ∀ t ∈ ts, P t
  | [] => by simp
  | t :: ts => by
    have ht := Term.induction t
    have hts := termsInduction ts
    simpa using ⟨ht, hts⟩
theorem armsInduction : ∀ arms : List (Arm β), ∀ a ∈ arms, (∀ t ∈ a.guards, P t) ∧ P a.value
  | [] => by simp
  | ⟨guards, value⟩ :: arms => by
    have hg := termsInduction guards
    have hv := Term.induction value
    have harms := armsInduction arms
    simp only [List.mem_cons, forall_eq_or_imp]
    exact ⟨⟨hg, hv⟩, harms⟩
theorem joinsInduction : ∀ js : List (JoinOn β), ∀ j ∈ js, P j.outer ∧ P j.inner
  | [] => by simp
  | ⟨keyword, table, outer, inner⟩ :: js => by
    have ho := Term.induction outer
    have hi := Term.induction inner
    have hjs := joinsInduction js
    simp only [List.mem_cons, forall_eq_or_imp]
    exact ⟨⟨ho, hi⟩, hjs⟩
theorem sortTermsInduction : ∀ ks : List (SortTerm β), ∀ k ∈ ks, P k.key
  | [] => by simp
  | ⟨key, keyword⟩ :: ks => by
    have hk := Term.induction key
    have hks := sortTermsInduction ks
    simp only [List.mem_cons, forall_eq_or_imp]
    exact ⟨hk, hks⟩
theorem selectInduction : ∀ s : Select β, s.All P
  | ⟨_, items, _, _, joins, conditions, groupBy, orderBy, _, _⟩ =>
    ⟨Term.induction items, joinsInduction joins, termsInduction conditions, termsInduction groupBy,
      sortTermsInduction orderBy⟩
end

end Induction

/-- A property of all terms holds of every term of a statement. -/
theorem Select.All.intro {P : Term β → Prop} (h : ∀ t, P t) (s : Select β) : s.All P :=
  ⟨h _, fun _ _ => ⟨h _, h _⟩, fun _ _ => h _, fun _ _ => h _, fun _ _ => h _⟩

/-! ## Slots -/

mutual
/-- The slots of a term, in the order in which they are visited. -/
def Term.slots : Term β → List β
  | .slot b => [b]
  | .table _ | .allColumns _ | .countAll => []
  | .column qualifier _ _ => qualifier.slots
  | .labelled t _ | .nullTest t _ | .negation t | .paren t | .lengthOf t => t.slots
  | .list items => termSlots items
  | .operation left _ right => left.slots ++ right.slots
  | .call _ arguments => termSlots arguments
  | .caseWhen arms otherwise => armSlots arms ++ otherwise.slots
  | .groupCount _ _ inner outer => inner.slots ++ outer.slots
  | .subquery s => s.slots
/-- The slots of each of some terms. -/
def termSlots : List (Term β) → List β
  | [] => []
  | t :: rest => t.slots ++ termSlots rest
/-- The slots of each of some arms. -/
def armSlots : List (Arm β) → List β
  | [] => []
  | ⟨guards, value⟩ :: rest => termSlots guards ++ value.slots ++ armSlots rest
/-- The slots in the keys of the joins. -/
def joinSlots : List (JoinOn β) → List β
  | [] => []
  | ⟨_, _, outer, inner⟩ :: rest => outer.slots ++ inner.slots ++ joinSlots rest
/-- The slots of the sort keys. -/
def sortSlots : List (SortTerm β) → List β
  | [] => []
  | ⟨key, _⟩ :: rest => key.slots ++ sortSlots rest
/-- The slots of a statement, in the order in which they are visited. -/
def Select.slots : Select β → List β
  | ⟨_, items, _, _, joins, conditions, groupBy, orderBy, _, _⟩ =>
    items.slots ++ joinSlots joins ++ termSlots conditions ++ termSlots groupBy ++ sortSlots orderBy
end

theorem termSlots_eq_flatMap (ts : List (Term β)) : termSlots ts = ts.flatMap Term.slots := by
  induction ts with
  | nil => rfl
  | cons t ts ih => simp [termSlots, ih]

/-- The slots of an arm: those of its guards and of its value. -/
def Arm.slots (a : Arm β) : List β := a.guards.flatMap Term.slots ++ a.value.slots

theorem armSlots_eq_flatMap (arms : List (Arm β)) : armSlots arms = arms.flatMap Arm.slots := by
  induction arms with
  | nil => rfl
  | cons a arms ih =>
    obtain ⟨guards, value⟩ := a
    simp [armSlots, Arm.slots, termSlots_eq_flatMap, ih]

/-- The slots of a join: those of its two keys. -/
def JoinOn.slots (j : JoinOn β) : List β := j.outer.slots ++ j.inner.slots

theorem joinSlots_eq_flatMap (js : List (JoinOn β)) : joinSlots js = js.flatMap JoinOn.slots := by
  induction js with
  | nil => rfl
  | cons j js ih =>
    obtain ⟨keyword, table, outer, inner⟩ := j
    simp [joinSlots, JoinOn.slots, ih]

theorem sortSlots_eq_flatMap (ks : List (SortTerm β)) : sortSlots ks = ks.flatMap (·.key.slots) := by
  induction ks with
  | nil => rfl
  | cons k ks ih =>
    obtain ⟨key, keyword⟩ := k
    simp [sortSlots, ih]

theorem Select.slots_eq (s : Select β) :
    s.slots = s.items.slots ++ s.joins.flatMap JoinOn.slots ++ s.conditions.flatMap Term.slots ++
      s.groupBy.flatMap Term.slots ++ s.orderBy.flatMap (·.key.slots) := by
  obtain ⟨_, items, _, _, joins, conditions, groupBy, orderBy, _, _⟩ := s
  simp [Select.slots, joinSlots_eq_flatMap, termSlots_eq_flatMap, sortSlots_eq_flatMap]

/-! ## Replacing slots -/

/-- The term with every slot replaced. -/
def Term.map (f : β → γ) (t : Term β) : Term γ := t.mapM (m := Id) f

/-- The statement with every slot replaced. -/
def Select.map (f : β → γ) (s : Select β) : Select γ := s.mapM (m := Id) f

/-- An arm with its slots changed. -/
def Arm.map (f : β → γ) (a : Arm β) : Arm γ := ⟨a.guards.map (Term.map f), a.value.map f⟩

/-- A join with its slots changed. -/
def JoinOn.map (f : β → γ) (j : JoinOn β) : JoinOn γ :=
  ⟨j.keyword, j.table, j.outer.map f, j.inner.map f⟩

/-- A sort key with its slots changed. -/
def SortTerm.map (f : β → γ) (k : SortTerm β) : SortTerm γ := ⟨k.key.map f, k.keyword⟩

theorem mapTerms_id (f : β → γ) (ts : List (Term β)) :
    mapTerms (m := Id) f ts = ts.map (Term.map f) := by
  induction ts with
  | nil => rfl
  | cons t ts ih =>
    show (t.map f :: mapTerms (m := Id) f ts : List (Term γ)) = _
    rw [ih]; rfl

theorem mapArms_id (f : β → γ) (arms : List (Arm β)) :
    mapArms (m := Id) f arms = arms.map (Arm.map f) := by
  induction arms with
  | nil => rfl
  | cons a arms ih =>
    obtain ⟨guards, value⟩ := a
    show (⟨mapTerms (m := Id) f guards, value.map f⟩ :: mapArms (m := Id) f arms : List (Arm γ)) = _
    rw [ih, mapTerms_id]; rfl

theorem mapJoins_id (f : β → γ) (js : List (JoinOn β)) :
    mapJoins (m := Id) f js = js.map (JoinOn.map f) := by
  induction js with
  | nil => rfl
  | cons j js ih =>
    obtain ⟨keyword, table, outer, inner⟩ := j
    show (⟨keyword, table, outer.map f, inner.map f⟩ :: mapJoins (m := Id) f js : List (JoinOn γ)) = _
    rw [ih]; rfl

theorem mapSortTerms_id (f : β → γ) (ks : List (SortTerm β)) :
    mapSortTerms (m := Id) f ks = ks.map (SortTerm.map f) := by
  induction ks with
  | nil => rfl
  | cons k ks ih =>
    obtain ⟨key, keyword⟩ := k
    show (⟨key.map f, keyword⟩ :: mapSortTerms (m := Id) f ks : List (SortTerm γ)) = _
    rw [ih]; rfl

section Map

variable (f : β → γ)

@[simp] theorem Term.map_slot (b : β) : (Term.slot b).map f = .slot (f b) := rfl

@[simp] theorem Term.map_table (name : String) : (Term.table name).map f = .table name := rfl

@[simp] theorem Term.map_allColumns (table : String) : (Term.allColumns table).map f = .allColumns table := rfl

@[simp] theorem Term.map_column (qualifier : Term β) (name : String) (steps : List String) :
    (Term.column qualifier name steps).map f = .column (qualifier.map f) name steps := rfl

@[simp] theorem Term.map_countAll : (Term.countAll).map f = .countAll := rfl

@[simp] theorem Term.map_labelled (t : Term β) (label : String) :
    (Term.labelled t label).map f = .labelled (t.map f) label := rfl

@[simp] theorem Term.map_list (items : List (Term β)) :
    (Term.list items).map f = .list (items.map (Term.map f)) :=
  congrArg Term.list (mapTerms_id f items)

@[simp] theorem Term.map_operation (left right : Term β) (op : Infix) :
    (Term.operation left op right).map f = .operation (left.map f) op (right.map f) := rfl

@[simp] theorem Term.map_nullTest (t : Term β) (negated : Bool) :
    (Term.nullTest t negated).map f = .nullTest (t.map f) negated := rfl

@[simp] theorem Term.map_negation (t : Term β) : (Term.negation t).map f = .negation (t.map f) := rfl

@[simp] theorem Term.map_paren (t : Term β) : (Term.paren t).map f = .paren (t.map f) := rfl

@[simp] theorem Term.map_lengthOf (t : Term β) : (Term.lengthOf t).map f = .lengthOf (t.map f) := rfl

@[simp] theorem Term.map_call (template : Template) (arguments : List (Term β)) :
    (Term.call template arguments).map f = .call template (arguments.map (Term.map f)) :=
  congrArg (Term.call template) (mapTerms_id f arguments)

@[simp] theorem Term.map_caseWhen (arms : List (Arm β)) (otherwise : Term β) :
    (Term.caseWhen arms otherwise).map f = .caseWhen (arms.map (Arm.map f)) (otherwise.map f) :=
  congrArg (Term.caseWhen · (otherwise.map f)) (mapArms_id f arms)

@[simp] theorem Term.map_groupCount (table copy : String) (inner outer : Term β) :
    (Term.groupCount table copy inner outer).map f = .groupCount table copy (inner.map f) (outer.map f) :=
  rfl

@[simp] theorem Term.map_subquery (s : Select β) : (Term.subquery s).map f = .subquery (s.map f) := rfl

theorem Select.map_eq (s : Select β) :
    s.map f = ⟨s.distinct, s.items.map f, s.schema, s.table, s.joins.map (JoinOn.map f),
      s.conditions.map (Term.map f), s.groupBy.map (Term.map f), s.orderBy.map (SortTerm.map f),
      s.limit, s.offset⟩ := by
  obtain ⟨distinct, items, schema, table, joins, conditions, groupBy, orderBy, limit, offset⟩ := s
  show Select.mk distinct (items.map f) schema table (mapJoins (m := Id) f joins)
    (mapTerms (m := Id) f conditions) (mapTerms (m := Id) f groupBy)
    (mapSortTerms (m := Id) f orderBy) limit offset = _
  rw [mapJoins_id, mapTerms_id, mapTerms_id, mapSortTerms_id]

theorem Select.slots_map_of {f : β → γ} {s : Select β} (h : s.All fun t => (t.map f).slots = t.slots.map f) :
    (s.map f).slots = s.slots.map f := by
  have hj : (s.joins.map (JoinOn.map f)).flatMap JoinOn.slots = (s.joins.flatMap JoinOn.slots).map f := by
    rw [List.flatMap_map, List.map_flatMap]
    refine List.flatMap_congr fun j hj => ?_
    simp [JoinOn.slots, JoinOn.map, (h.joins j hj).1, (h.joins j hj).2]
  have hk : (s.orderBy.map (SortTerm.map f)).flatMap (·.key.slots) = (s.orderBy.flatMap (·.key.slots)).map f := by
    rw [List.flatMap_map, List.map_flatMap]
    exact List.flatMap_congr fun k hk => h.orderBy k hk
  rw [Select.slots_eq, Select.slots_eq, Select.map_eq]
  simp only [List.map_append, h.items, hj, hk, List.flatMap_map, List.map_flatMap,
    List.flatMap_congr h.conditions, List.flatMap_congr h.groupBy]

/-- The slots of the image are the images of the slots. -/
theorem Term.slots_map (t : Term β) : (t.map f).slots = t.slots.map f := by
  induction t using Term.induction with
  | slot b => rfl
  | table name => rfl
  | allColumns table => rfl
  | column qualifier name steps ih => simpa [Term.slots] using ih
  | countAll => rfl
  | labelled t label ih => simpa [Term.slots] using ih
  | list items ih =>
    simp only [Term.map_list, Term.slots, termSlots_eq_flatMap, List.flatMap_map, List.map_flatMap]
    exact List.flatMap_congr ih
  | operation left op right ihl ihr => simp [Term.slots, ihl, ihr]
  | nullTest t negated ih => simpa [Term.slots] using ih
  | negation t ih => simpa [Term.slots] using ih
  | paren t ih => simpa [Term.slots] using ih
  | lengthOf t ih => simpa [Term.slots] using ih
  | call template arguments ih =>
    simp only [Term.map_call, Term.slots, termSlots_eq_flatMap, List.flatMap_map, List.map_flatMap]
    exact List.flatMap_congr ih
  | caseWhen arms otherwise iha iho =>
    simp only [Term.map_caseWhen, Term.slots, armSlots_eq_flatMap, List.flatMap_map, List.map_append,
      List.map_flatMap, iho]
    congr 1
    refine List.flatMap_congr fun a ha => ?_
    simp only [Arm.slots, Arm.map, List.flatMap_map, List.map_append, List.map_flatMap, (iha a ha).2]
    congr 1
    exact List.flatMap_congr (iha a ha).1
  | groupCount table copy inner outer ihi iho => simp [Term.slots, ihi, iho]
  | subquery s ih => simpa [Term.slots] using Select.slots_map_of ih

theorem Select.slots_map (s : Select β) : (s.map f).slots = s.slots.map f :=
  Select.slots_map_of (Select.All.intro (Term.slots_map f) s)

theorem Select.map_map_of {g : γ → δ} {f : β → γ} {s : Select β}
    (h : s.All fun t => (t.map f).map g = t.map fun b => g (f b)) :
    (s.map f).map g = s.map fun b => g (f b) := by
  simp only [Select.map_eq, h.items, List.map_map, Select.mk.injEq, true_and, and_true]
  refine ⟨List.map_congr_left fun j hj => ?_, List.map_congr_left h.conditions, List.map_congr_left h.groupBy,
    List.map_congr_left fun k hk => ?_⟩
  · simp [JoinOn.map, (h.joins j hj).1, (h.joins j hj).2]
  · simp [SortTerm.map, h.orderBy k hk]

/-- Replacing slots twice is replacing them once. -/
theorem Term.map_map (g : γ → δ) (t : Term β) : (t.map f).map g = t.map fun b => g (f b) := by
  induction t using Term.induction with
  | slot b => rfl
  | table name => rfl
  | allColumns table => rfl
  | column qualifier name steps ih => simp [ih]
  | countAll => rfl
  | labelled t label ih => simp [ih]
  | list items ih =>
    simp only [Term.map_list, List.map_map]
    exact congrArg Term.list (List.map_congr_left ih)
  | operation left op right ihl ihr => simp [ihl, ihr]
  | nullTest t negated ih => simp [ih]
  | negation t ih => simp [ih]
  | paren t ih => simp [ih]
  | lengthOf t ih => simp [ih]
  | call template arguments ih =>
    simp only [Term.map_call, List.map_map]
    exact congrArg (Term.call template) (List.map_congr_left ih)
  | caseWhen arms otherwise iha iho =>
    simp only [Term.map_caseWhen, List.map_map, iho]
    refine congrArg (Term.caseWhen · _) (List.map_congr_left fun a ha => ?_)
    simp only [Function.comp_apply, Arm.map, (iha a ha).2, List.map_map, Arm.mk.injEq, and_true]
    exact List.map_congr_left (iha a ha).1
  | groupCount table copy inner outer ihi iho => simp [ihi, iho]
  | subquery s ih => simp [Select.map_map_of ih]

theorem Select.map_map (g : γ → δ) (s : Select β) : (s.map f).map g = s.map fun b => g (f b) :=
  Select.map_map_of (Select.All.intro (Term.map_map f g) s)

end Map

/-! ## Tokens of the image -/

/-- A token with its slot changed. -/
def Token.map (f : β → γ) : Token β → Token γ
  | .text s => .text s
  | .name s => .name s
  | .key s => .key s
  | .slot b => .slot (f b)

/-- The frame with every slot replaced. -/
def Frame.map (f : β → γ) (fr : Frame β) : Frame γ :=
  { distinct := fr.distinct
    select := List.map (Token.map f) fr.select
    source := List.map (Token.map f) fr.source
    joins := fr.joins.map (List.map (Token.map f))
    conditions := fr.conditions.map (List.map (Token.map f))
    groupBy := fr.groupBy.map (List.map (Token.map f))
    orderBy := fr.orderBy.map (List.map (Token.map f))
    limit := fr.limit
    offset := fr.offset }

section TokenMap

variable (f : β → γ)

theorem Fragment.separated_map (separator : String) (fs : List (Fragment β)) :
    (Fragment.separated separator fs).map (Token.map f) =
      Fragment.separated separator (fs.map (List.map (Token.map f))) := by
  induction fs with
  | nil => rfl
  | cons F fs ih =>
    cases fs with
    | nil => rfl
    | cons G fs =>
      simp only [Fragment.separated, List.map_append, List.map_cons, ih]
      rfl

theorem guardFragment_map (fs : List (Fragment β)) :
    (guardFragment fs).map (Token.map f) = guardFragment (fs.map (List.map (Token.map f))) := by
  match fs with
  | [] => rfl
  | [F] => rfl
  | F :: G :: fs =>
    simp only [guardFragment, List.map_cons, Fragment.separated_map, List.map_map]
    simp [Function.comp_def, Fragment.parenthesized, Token.map]

theorem Fragment.traversal_map (steps : List String) :
    (Fragment.traversal steps : Fragment β).map (Token.map f) = Fragment.traversal steps := by
  induction steps with
  | nil => rfl
  | cons step steps ih =>
    cases steps with
    | nil => rfl
    | cons next steps =>
      simp only [Fragment.traversal, List.map_cons, ih]
      rfl

theorem Template.expand_map {α' α'' : Type} (t : Template) (g : α' → α'') (text : List Char → List α')
    (fragments : List (List α')) :
    (t.expand text fragments).map g = t.expand (fun cs => (text cs).map g) (fragments.map (List.map g)) := by
  rw [Template.expand, Template.expand, List.map_flatMap]
  refine List.flatMap_congr fun p _ => ?_
  match p with
  | .text cs => rfl
  | .slot none => rfl
  | .slot (some i) =>
    simp only [List.getD_eq_getElem?_getD, List.getElem?_map]
    cases fragments[i]? <;> rfl

theorem Frame.statement_map (fr : Frame β) : (fr.map f).statement = fr.statement.map (Token.map f) := by
  have hw : Frame.whereClause (fr.conditions.map (List.map (Token.map f))) =
      (Frame.whereClause fr.conditions).map (Token.map f) := by
    match fr.conditions with
    | [] => rfl
    | [F] => rfl
    | F :: G :: fs =>
      simp only [Frame.whereClause, List.map_cons, Fragment.separated_map, List.map_map]
      simp [Function.comp_def, Fragment.parenthesized, Token.map]
  have hl : ∀ keyword (items : List (Fragment β)),
      Frame.listClause keyword (items.map (List.map (Token.map f))) =
        (Frame.listClause keyword items).map (Token.map f) := by
    intro keyword items
    cases items with
    | nil => rfl
    | cons F fs => simp [Frame.listClause, Fragment.separated_map, Token.map]
  rw [Frame.statement, Frame.statement]
  cases hd : fr.distinct <;> cases hlim : fr.limit <;> cases hoff : fr.offset <;>
    simp [Frame.map, hd, hlim, hoff, hw, hl, Token.map, List.flatMap_map, List.map_flatMap]

/-- The table that a statement reads from. -/
def Select.sourceFragment (s : Select β) : Fragment β :=
  match s.schema with
  | none => [.name s.table]
  | some schema => Fragment.qualified schema s.table

theorem Select.frame_eq (s : Select β) :
    s.frame =
      { distinct := s.distinct
        select := s.items.fragment
        source := s.sourceFragment
        joins := s.joins.map JoinOn.fragment
        conditions := s.conditions.map Term.fragment
        groupBy := s.groupBy.map Term.fragment
        orderBy := s.orderBy.map SortTerm.fragment
        limit := s.limit.map limitText
        offset := s.offset } := by
  obtain ⟨distinct, items, schema, table, joins, conditions, groupBy, orderBy, limit, offset⟩ := s
  simp only [Select.frame, joinFragments_eq_map, termFragments_eq_map, sortFragments_eq_map]
  cases schema <;> rfl

theorem fragments_map_of {ts : List (Term β)}
    (h : ∀ t ∈ ts, (t.map f).fragment = t.fragment.map (Token.map f)) :
    (ts.map (Term.map f)).map Term.fragment = (ts.map Term.fragment).map (List.map (Token.map f)) := by
  rw [List.map_map, List.map_map]
  exact List.map_congr_left h

theorem Select.frame_map_of {s : Select β}
    (h : s.All fun t => (t.map f).fragment = t.fragment.map (Token.map f)) :
    (s.map f).frame = s.frame.map f := by
  rw [Select.frame_eq, Select.frame_eq, Select.map_eq]
  simp only [Frame.map, List.map_map, Frame.mk.injEq, true_and, and_true]
  refine ⟨h.items, ?_, List.map_congr_left fun j hj => ?_, List.map_congr_left fun t ht => ?_,
    List.map_congr_left fun t ht => ?_, List.map_congr_left fun k hk => ?_⟩
  · cases h : s.schema <;> simp [Select.sourceFragment, h, Fragment.qualified, Token.map]
  · simp [JoinOn.fragment, JoinOn.map, (h.joins j hj).1, (h.joins j hj).2, Token.map]
  · exact h.conditions t ht
  · exact h.groupBy t ht
  · simp [SortTerm.fragment, SortTerm.map, h.orderBy k hk, Token.map]

/-- The image of a term is written like the term, with the image of each
slot in the slot's place. -/
theorem Term.fragment_map (t : Term β) : (t.map f).fragment = t.fragment.map (Token.map f) := by
  induction t using Term.induction with
  | slot b => rfl
  | table name => rfl
  | allColumns table => rfl
  | column qualifier name steps ih =>
    simp [Term.fragment, ih, Fragment.traversal_map, Token.map]
  | countAll => rfl
  | labelled t label ih => simp [Term.fragment, ih, Token.map]
  | list items ih =>
    simp only [Term.map_list, Term.fragment, termFragments_eq_map, Fragment.separated_map]
    rw [fragments_map_of f ih]
  | operation left op right ihl ihr => simp [Term.fragment, ihl, ihr, Token.map]
  | nullTest t negated ih => simp [Term.fragment, ih, Token.map]
  | negation t ih => simp [Term.fragment, ih, Token.map]
  | paren t ih => simp [Term.fragment, Fragment.parenthesized, ih, Token.map]
  | lengthOf t ih => simp [Term.fragment, ih, Token.map]
  | call template arguments ih =>
    simp only [Term.map_call, Term.fragment, termFragments_eq_map, Template.expand_map]
    rw [fragments_map_of f ih]
    rfl
  | caseWhen arms otherwise iha iho =>
    have harms : (arms.map (Arm.map f)).flatMap Arm.fragment =
        (arms.flatMap Arm.fragment).map (Token.map f) := by
      rw [List.flatMap_map, List.map_flatMap]
      refine List.flatMap_congr fun a ha => ?_
      simp only [Arm.fragment, Arm.map, List.map_append, List.map_cons, guardFragment_map, (iha a ha).2]
      rw [fragments_map_of f (iha a ha).1]
      rfl
    simp [Term.fragment, armFragments_eq_flatMap, harms, iho, Token.map]
  | groupCount table copy inner outer ihi iho => simp [Term.fragment, ihi, iho, Token.map]
  | subquery s ih =>
    simp [Term.fragment, Fragment.parenthesized, Select.frame_map_of f ih, Frame.statement_map, Token.map]

theorem Select.frame_map (s : Select β) : (s.map f).frame = s.frame.map f :=
  Select.frame_map_of f (Select.All.intro (Term.fragment_map f) s)

end TokenMap

end ParamQuery.Sql
