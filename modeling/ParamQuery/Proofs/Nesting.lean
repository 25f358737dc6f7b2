/-
Parentheses in SQL. `nesting` counts those that are open behind the lexemes of a
text; what stands in quotes does not count. A fragment is `Level` when its texts
close what they open, in order. Level fragments stay so when they are put
together, and when level fragments are put in their slots.

What queries become is level (`Term.Built.level`), and so is the SQL of a filter
(`Filter.fragment_level`).
-/
import ParamQuery.Proofs.BuiltTerms
import ParamQuery.Proofs.FilterFacts

namespace ParamQuery.Sql

variable {β γ : Type}

/-! ## Depth -/

/-- The depth behind a lexeme, `none` when nothing is open that it could
close. -/
def nestLexeme (depth : Nat) : Lexeme → Option Nat
  | .char c =>
    if c = '(' then some (depth + 1)
    else if c = ')' then if depth = 0 then none else some (depth - 1)
    else some depth
  | _ => some depth

/-- The depth behind lexemes. -/
def nesting (depth : Nat) (l : List Lexeme) : Option Nat := l.foldlM nestLexeme depth

/-- Every parenthesis is closed, and none that is not open. -/
def Balanced (l : List Lexeme) : Prop := nesting 0 l = some 0

instance (l : List Lexeme) : Decidable (Balanced l) := inferInstanceAs (Decidable (_ = _))

@[simp] theorem nesting_nil (depth : Nat) : nesting depth [] = some depth := rfl

theorem nesting_cons (depth : Nat) (x : Lexeme) (l : List Lexeme) :
    nesting depth (x :: l) = (nestLexeme depth x).bind fun d => nesting d l := rfl

theorem nesting_append (depth : Nat) (l l' : List Lexeme) :
    nesting depth (l ++ l') = (nesting depth l).bind fun d => nesting d l' := List.foldlM_append

theorem nestLexeme_lift {a b : Nat} {x : Lexeme} (h : nestLexeme a x = some b) (k : Nat) :
    nestLexeme (a + k) x = some (b + k) := by
  cases x with
  | char c =>
    simp only [nestLexeme] at h ⊢
    split at h
    · rw [if_pos ‹_›]
      cases h
      congr 1
      omega
    · rw [if_neg ‹_›]
      split at h
      · rw [if_pos ‹_›]
        split at h
        · cases h
        · cases h
          rw [if_neg (by omega)]
          congr 1
          omega
      · rw [if_neg ‹_›]
        cases h
        rfl
  | quoted quote content | parameter sigil name =>
    cases h
    rfl

/-- What is open around a text does not matter to it. -/
theorem nesting_lift {a b : Nat} {l : List Lexeme} (h : nesting a l = some b) (k : Nat) :
    nesting (a + k) l = some (b + k) := by
  induction l generalizing a with
  | nil =>
    cases h
    rfl
  | cons x l ih =>
    rw [nesting_cons] at h ⊢
    obtain ⟨c, hc, hrest⟩ := Option.bind_eq_some_iff.1 h
    rw [nestLexeme_lift hc k]
    exact ih hrest

theorem Balanced.nesting {l : List Lexeme} (h : Balanced l) (depth : Nat) : nesting depth l = some depth := by
  have hlift := nesting_lift h depth
  rwa [Nat.zero_add] at hlift

/-- Lexemes other than parentheses are balanced. -/
theorem balanced_of_forall {l : List Lexeme} (h : ∀ x ∈ l, x ≠ .char '(' ∧ x ≠ .char ')') : Balanced l := by
  induction l with
  | nil => rfl
  | cons x l ih =>
    have hx : nestLexeme 0 x = some 0 := by
      obtain ⟨hopen, hclose⟩ := h x (by simp)
      cases x with
      | char c =>
        rw [ne_eq, Lexeme.char.injEq] at hopen hclose
        rw [nestLexeme, if_neg hopen, if_neg hclose]
      | quoted quote content | parameter sigil name => rfl
    rw [Balanced, nesting_cons, hx]
    exact ih fun y hy => h y (by simp [hy])

/-! ## Fragments -/

/-- Whether the parentheses in a text lead from one depth to another. -/
def shifts (a b : Nat) (s : String) : Bool := nesting a (textLexemes s) == some b

/-- The parentheses in the texts of a fragment lead from one depth to another;
what is in the slots does not count. -/
def Fragment.Shifts (a b : Nat) (f : Fragment β) : Prop :=
  nesting a (f.flatMap (Token.lexemes fun _ => [])) = some b

instance (a b : Nat) (f : Fragment β) : Decidable (f.Shifts a b) := inferInstanceAs (Decidable (_ = _))

/-- The texts of a fragment close what they open. -/
abbrev Fragment.Level (f : Fragment β) : Prop := f.Shifts 0 0

namespace Fragment.Shifts

variable {a b c : Nat} {f g : Fragment β} {s : String}

theorem nil (a : Nat) : Shifts a a ([] : Fragment β) := rfl

theorem text (h : shifts a b s) : Shifts a b ([.text s] : Fragment β) := by
  simpa [Shifts, Token.lexemes, shifts] using h

theorem name (a : Nat) (s : String) : Shifts a a ([.name s] : Fragment β) := rfl

theorem key (a : Nat) (s : String) : Shifts a a ([.key s] : Fragment β) := rfl

theorem slot (a : Nat) (x : β) : Shifts a a [Token.slot x] := rfl

theorem append (hf : f.Shifts a b) (hg : g.Shifts b c) : Shifts a c (f ++ g) := by
  rw [Shifts, List.flatMap_append, nesting_append, hf]
  exact hg

theorem cons (hs : shifts a b s) (hf : f.Shifts b c) : Shifts a c (.text s :: f) := append (text hs) hf

/-- Text between two fragments. -/
theorem join {d : Nat} (hf : f.Shifts a b) (hs : shifts b c s) (hg : g.Shifts c d) :
    Shifts a d (f ++ Token.text s :: g) := hf.append (cons hs hg)

/-- Text behind a fragment. -/
theorem close (hf : f.Shifts a b) (hs : shifts b c s) : Shifts a c (f ++ [Token.text s]) := hf.append (text hs)

theorem lift (hf : f.Shifts a b) (k : Nat) : f.Shifts (a + k) (b + k) := nesting_lift hf k

theorem inside (hf : f.Level) : f.Shifts 1 1 := hf.lift 1

/-- Balanced lexemes in the slots change nothing. -/
theorem lexemes (hf : f.Shifts a b) {x : β → List Lexeme} (hx : ∀ s ∈ f.slots, Balanced (x s)) :
    nesting a (f.flatMap (Token.lexemes x)) = some b := by
  induction f generalizing a with
  | nil => exact hf
  | cons t f ih =>
    rw [Shifts, List.flatMap_cons, nesting_append] at hf
    obtain ⟨d, hd, hrest⟩ := Option.bind_eq_some_iff.1 hf
    have ht : nesting a (t.lexemes x) = some d := by
      cases t with
      | slot s =>
        rw [← hd]
        exact (hx s (by simp [Token.slots])).nesting a
      | text s | name s | key s => exact hd
    rw [List.flatMap_cons, nesting_append, ht]
    exact ih hrest fun s hs => hx s (by simp [hs])

/-- Level fragments in the slots of a fragment. -/
theorem splice {h : β → Fragment γ} (hf : f.Shifts a b) (hh : ∀ s ∈ f.slots, (h s).Level) :
    Shifts a b (f.splice h) := by
  have hlexemes := hf.lexemes hh
  rw [Shifts, Fragment.splice, List.flatMap_assoc]
  refine Eq.trans (congrArg (nesting a) (List.flatMap_congr fun t _ => ?_)) hlexemes
  cases t <;> simp [Token.splice, Token.lexemes]

theorem separated (hs : shifts 0 0 s) {fs : List (Fragment β)} (h : ∀ f ∈ fs, f.Level) :
    Level (Fragment.separated s fs) := by
  induction fs with
  | nil => exact nil 0
  | cons f fs ih =>
    cases fs with
    | nil => exact h f (by simp)
    | cons g fs => exact (h f (by simp)).join hs (ih fun x hx => h x (by simp [hx]))

theorem parenthesized (h : f.Level) : Level (Fragment.parenthesized f) :=
  cons (by decide) (h.inside.close (by decide))

theorem separated_parenthesized (hs : shifts 0 0 s) {fs : List (Fragment β)} (h : ∀ f ∈ fs, f.Level) :
    Level (Fragment.separated s (fs.map Fragment.parenthesized)) := by
  refine separated hs fun F hF => ?_
  obtain ⟨f, hf, rfl⟩ := List.mem_map.1 hF
  exact (h f hf).parenthesized

theorem flatMap {α : Type} {h : α → Fragment β} {l : List α} (hl : ∀ x ∈ l, (h x).Level) : Level (l.flatMap h) := by
  induction l with
  | nil => exact nil 0
  | cons x l ih => exact (hl x (by simp)).append (ih fun y hy => hl y (by simp [hy]))

theorem traversal (steps : List String) : Level (Fragment.traversal steps : Fragment β) := by
  induction steps with
  | nil => exact nil 0
  | cons step rest ih =>
    cases rest with
    | nil => exact cons (by decide) (key 0 step)
    | cons next rest => exact cons (by decide) ((key 0 step).append ih)

theorem qualified (table column : String) : Level (Fragment.qualified table column : Fragment β) :=
  (name 0 table).join (by decide) (name 0 column)

end Fragment.Shifts

/-- Words hold no parentheses. -/
theorem shifts_of_isWords {s : String} (h : isWords s) : shifts 0 0 s := by
  have hrun := Lexer.run_words (List.all_eq_true.1 h)
  have hbalanced : Balanced (textLexemes s) := by
    refine balanced_of_forall fun x hx => ?_
    simp only [textLexemes, hrun, Lexer.State.flush, List.append_nil] at hx
    obtain ⟨c, hc, rfl⟩ := List.mem_map.1 hx
    have hw := List.all_eq_true.1 h c hc
    simp only [ne_eq, Lexeme.char.injEq]
    constructor <;> (rintro rfl; exact absurd hw (by decide))
  rw [shifts, hbalanced]
  rfl

/-! ## Statements -/

theorem guardFragment_level {fs : List (Fragment β)} (h : ∀ f ∈ fs, f.Level) : (guardFragment fs).Level := by
  match fs, h with
  | [], _ => exact .nil 0
  | [f], h => exact h f (by simp)
  | f :: g :: fs, h => exact .separated_parenthesized (by decide) h

namespace Frame

theorem whereClause_level {fs : List (Fragment β)} (h : ∀ f ∈ fs, f.Level) : (whereClause fs).Level := by
  match fs, h with
  | [], _ => exact .nil 0
  | [f], h => exact .cons (by decide) (h f (by simp))
  | f :: g :: fs, h => exact .cons (by decide) (.separated_parenthesized (by decide) h)

theorem listClause_level {keyword : String} (hk : shifts 0 0 keyword) {fs : List (Fragment β)}
    (h : ∀ f ∈ fs, f.Level) : (listClause keyword fs).Level := by
  unfold listClause
  split
  · exact .nil 0
  · exact .cons hk (.separated (by decide) h)

/-- A statement of level clauses is level. -/
theorem statement_level {f : Frame β} (hselect : f.select.Level) (hsource : f.source.Level)
    (hjoins : ∀ j ∈ f.joins, j.Level) (hconditions : ∀ c ∈ f.conditions, c.Level) (hgroups : ∀ g ∈ f.groupBy, g.Level)
    (horder : ∀ k ∈ f.orderBy, k.Level) (hlimit : ∀ s ∈ f.limit, isWords s) : f.statement.Level := by
  have hdistinct : Fragment.Level (if f.distinct then [.text "DISTINCT "] else [] : Fragment β) := by
    split
    · exact .text (by decide)
    · exact .nil 0
  have hjoin : Fragment.Level (f.joins.flatMap (.text " " :: ·)) := .flatMap fun j hj => .cons (by decide) (hjoins j hj)
  have hhead : Fragment.Level
      (Token.text "SELECT " :: (if f.distinct then [Token.text "DISTINCT "] else []) ++ f.select) :=
    Fragment.Shifts.append (.cons (by decide) hdistinct) hselect
  have hfrom : Fragment.Level (.text " FROM " :: f.source) := .cons (by decide) hsource
  have hgroup : (listClause " GROUP BY " f.groupBy).Level := listClause_level (by decide) hgroups
  have hkeys : (listClause " ORDER BY " f.orderBy).Level := listClause_level (by decide) horder
  have hrows := ((hhead.append hfrom).append hjoin).append (whereClause_level hconditions)
  have hclauses := (hrows.append hgroup).append hkeys
  rw [statement]
  refine Fragment.Shifts.append (b := 0) (hclauses.append ?_) ?_
  · cases h : f.limit with
    | none => exact .nil 0
    | some n => exact .cons (by decide) (.text (shifts_of_isWords (hlimit n h)))
  · cases f.offset with
    | none => exact .nil 0
    | some n => exact .cons (by decide) (.text (shifts_of_isWords (isWords_toString n)))

end Frame

theorem Select.level {s : Select β} (h : s.All fun t => t.fragment.Level) (hjoins : ∀ j ∈ s.joins, isWords j.keyword)
    (hkeys : ∀ k ∈ s.orderBy, isWords k.keyword) : s.frame.statement.Level := by
  rw [Select.frame_eq]
  refine Frame.statement_level h.items ?_ ?_ ?_ ?_ ?_ ?_
  · unfold Select.sourceFragment
    cases s.schema with
    | none => exact .name 0 _
    | some schema => exact .qualified _ _
  · intro f hf
    obtain ⟨j, hj, rfl⟩ := List.mem_map.1 hf
    have hon : Fragment.Level (([Token.name j.table] : Fragment β) ++ Token.text " ON " ::
        (j.outer.fragment ++ Token.text " = " :: j.inner.fragment)) :=
      (Fragment.Shifts.name 0 _).join (by decide) ((h.joins j hj).1.join (by decide) (h.joins j hj).2)
    have hline := Fragment.Shifts.cons (shifts_of_isWords (hjoins j hj))
      (Fragment.Shifts.cons (s := " ") (by decide) hon)
    simpa [JoinOn.fragment] using hline
  · intro f hf
    obtain ⟨t, ht, rfl⟩ := List.mem_map.1 hf
    exact h.conditions t ht
  · intro f hf
    obtain ⟨t, ht, rfl⟩ := List.mem_map.1 hf
    exact h.groupBy t ht
  · intro f hf
    obtain ⟨k, hk, rfl⟩ := List.mem_map.1 hf
    exact (h.orderBy k hk).join (by decide) (.text (shifts_of_isWords (hkeys k hk)))
  · intro n hn
    obtain ⟨m, -, rfl⟩ := Option.mem_map.1 hn
    exact isWords_limitText m

/-! ## Terms -/

theorem shifts_padded (op : Infix) : shifts 0 0 op.padded := by
  cases op with
  | concat => decide
  | operator op => cases op <;> decide

end ParamQuery.Sql

theorem ParamQuery.Method.layout_level (m : Method) (arguments : Nat) : (m.layout arguments).Level := by
  cases m with
  | substring =>
    simp only [Method.layout]
    split <;> decide
  | equals | toLower | toUpper | reverse | length | concat | replace | trim | trimStart | trimEnd | contains
  | startsWith | endsWith =>
    simp only [Method.layout]
    decide

namespace ParamQuery.Sql

variable {β : Type} {ok : Method → Nat → Nat → Prop} {S : β → Prop}

/-- **What is built is level.** -/
theorem Term.Built.level {t : Term β} (h : t.Built ok S) : t.fragment.Level := by
  induction h with
  | slot => exact .slot 0 _
  | table name => exact .name 0 _
  | allColumns table => exact (Fragment.Shifts.name 0 table).close (by decide)
  | column name steps _ ih =>
    exact ih.join (by decide) ((Fragment.Shifts.name 0 name).append (.traversal steps))
  | countAll => exact .text (by decide)
  | labelled label _ ih => exact ih.join (by decide) (.name 0 label)
  | list _ ih =>
    rw [Term.fragment, termFragments_eq_map]
    refine .separated (by decide) fun f hf => ?_
    obtain ⟨t, ht, rfl⟩ := List.mem_map.1 hf
    exact ih t ht
  | operation op _ _ ihl ihr => exact ihl.join (shifts_padded op) ihr
  | nullTest negated _ ih => exact ih.close (by cases negated <;> decide)
  | negation _ ih => exact .cons (by decide) (ih.inside.close (by decide))
  | paren _ ih => exact ih.parenthesized
  | lengthOf _ ih => exact .cons (by decide) (ih.inside.close (by decide))
  | @call method n arguments _ _ ih =>
    rw [Term.fragment, termFragments_eq_map, Template.expand_eq_splice, Method.fragment_ofMethod,
      Fragment.splice_map]
    refine (method.layout_level n).splice fun i _ => ?_
    simp only [List.getD_eq_getElem?_getD, List.getElem?_map]
    cases hi : arguments[i]? with
    | none => exact .nil 0
    | some t => exact ih t (List.mem_of_getElem? hi)
  | @caseWhen arms otherwise _ _ _ ihg ihv iho =>
    have harm : ∀ a ∈ arms, a.fragment.Level := by
      intro a ha
      have hguards : (guardFragment (a.guards.map Term.fragment)).Level := by
        refine guardFragment_level fun f hf => ?_
        obtain ⟨t, ht, rfl⟩ := List.mem_map.1 hf
        exact ihg a ha t ht
      exact .cons (by decide) (hguards.join (by decide) (ihv a ha))
    have hcase : Fragment.Level (.text "CASE" :: arms.flatMap Arm.fragment) := .cons (by decide) (.flatMap harm)
    rw [Term.fragment, armFragments_eq_flatMap]
    exact (hcase.join (by decide) iho).close (by decide)
  | groupCount table copy _ _ ihi iho =>
    have hwhere := ihi.join (s := " = ") (by decide) iho
    have hfrom := (Fragment.Shifts.name 1 table).join (s := " AS ") (by decide)
      ((Fragment.Shifts.name 1 copy).join (s := " WHERE ") (by decide)
        (hwhere.inside.close (s := ")") (c := 0) (by decide)))
    have hall := Fragment.Shifts.cons (s := "(SELECT COUNT(*) FROM ") (a := 0) (by decide) hfrom
    simpa [Term.fragment] using hall
  | subquery _ _ _ _ _ _ hj hk ihi iho ihn ihc ihg ihk =>
    exact (Select.level ⟨ihi, fun j hj => ⟨iho j hj, ihn j hj⟩, ihc, ihg, ihk⟩ hj hk).parenthesized

/-- A built statement is level without its parentheses. -/
theorem Select.level_of_built {s : Select β} (h : (Term.subquery s).Built ok S) : s.frame.statement.Level := by
  cases h with
  | subquery hi ho hn hc hg hk hj hkeys =>
    exact Select.level ⟨hi.level, fun j hj => ⟨(ho j hj).level, (hn j hj).level⟩, fun t ht => (hc t ht).level,
      fun t ht => (hg t ht).level, fun k h => (hk k h).level⟩ hj hkeys

end ParamQuery.Sql

/-! ## Filters -/

namespace ParamQuery

open Sql

theorem columnFragment_level (qualifier : Option String) (name : String) : (columnFragment qualifier name).Level := by
  cases qualifier with
  | none => exact .name 0 _
  | some t => exact .qualified _ _

theorem ColumnPath.resolve_level (p : ColumnPath) (table : Table) (qualifier : Option String) :
    (p.resolve table qualifier).operand.Level ∧
      ∀ column ∈ (p.resolve table qualifier).unnest, Fragment.Level column := by
  obtain ⟨name, -, h⟩ := p.resolve_cases table qualifier
  have hcolumn := columnFragment_level qualifier name
  have hsteps := Fragment.Shifts.traversal (β := String) (p.segments.drop 1)
  rcases h with h | h | h
  · rw [h]; exact ⟨hcolumn, by simp⟩
  · rw [h]; exact ⟨hcolumn.append hsteps, by simp⟩
  · rw [h]; exact ⟨.cons (by decide) hsteps, by simpa using hcolumn⟩

theorem PathTarget.predicate_level {t : PathTarget} (ht : t.operand.Level)
    (hu : ∀ column ∈ t.unnest, Fragment.Level column) {condition : Fragment String} (hc : condition.Level) :
    (t.predicate condition).Level := by
  unfold PathTarget.predicate
  split
  · exact ht.join (by decide) hc
  · rename_i column hcolumn
    have hwhere : Fragment.Level (t.operand ++ Token.text " " :: condition) := ht.join (by decide) hc
    have hinner := (((hu column hcolumn).lift 2).join (s := ") as objects where ") (c := 1) (by decide)
      hwhere.inside).close (s := ")") (c := 0) (by decide)
    have hall := Fragment.Shifts.cons (s := "exists (Select 1 from unnest(") (a := 0) (by decide) hinner
    simpa using hall

namespace Filter

variable (table : Table) (qualifier : Option String)

/-- The SQL of a filter is level. -/
theorem fragment_level (f : Filter) : (f.fragment table qualifier).Level := by
  have hpredicate : ∀ (path : String) {condition : Fragment String}, condition.Level →
      (((ColumnPath.parse path).resolve table qualifier).predicate condition).Level := by
    intro path condition hc
    have ht := (ColumnPath.parse path).resolve_level table qualifier
    exact PathTarget.predicate_level ht.1 ht.2 hc
  have hitems {items : List Filter} (ih : ∀ f ∈ items, (f.fragment table qualifier).Level) {s : String}
      (hs : shifts 0 0 s) :
      (Fragment.separated s (items.map fun f => Fragment.parenthesized (f.fragment table qualifier))).Level := by
    refine .separated hs fun F hF => ?_
    obtain ⟨f, hf, rfl⟩ := List.mem_map.1 hF
    exact (ih f hf).parenthesized
  induction f using Filter.induction with
  | compare path op value =>
    refine hpredicate path (.cons (b := 0) ?_ (.cons (by decide) (.slot 0 _)))
    cases op <;> decide
  | like path pattern => exact hpredicate path (.cons (by decide) (.slot 0 _))
  | isNull path negated => exact hpredicate path (.text (by cases negated <;> decide))
  | between path low high =>
    exact hpredicate path (.cons (by decide) ((Fragment.Shifts.slot 0 _).join (by decide) (.slot 0 _)))
  | and items ih =>
    cases items with
    | nil => exact .text (by decide)
    | cons f items =>
      rw [fragment_and_cons]
      exact hitems ih (by decide)
  | or items ih =>
    cases items with
    | nil => exact .text (by decide)
    | cons f items =>
      rw [fragment_or_cons]
      exact hitems ih (by decide)
  | not item ih => exact .cons (by decide) (ih.inside.close (by decide))

end Filter

end ParamQuery
