/-
Filters read back from their SQL. `Filter.value` is what a filter says, given
what its comparisons say, and `Filter.formula` the same as a formula. In the text
of a filter every item of a connective stands in parentheses, so it is read as
this formula, with the text of each comparison as an atom
(`Filter.readCondition_parts`). How its parameters are written does not matter, as
long as each is read as one.
-/
import ParamQuery.Proofs.ConditionGrammar
import ParamQuery.Proofs.Layouts
import ParamQuery.Proofs.Quoting

namespace ParamQuery

open Sql

namespace Filter

/-! ## What a filter says -/

mutual
/-- The truth value of a filter, given those of its comparisons. -/
def value (v : Filter → Truth) : Filter → Truth
  | .compare path op value => v (.compare path op value)
  | .like path pattern => v (.like path pattern)
  | .isNull path negated => v (.isNull path negated)
  | .between path low high => v (.between path low high)
  | .and items => Truth.all (values v items)
  | .or items => Truth.any (values v items)
  | .not item => (value v item).not
/-- The truth values of some filters, in order. -/
def values (v : Filter → Truth) : List Filter → List Truth
  | [] => []
  | item :: rest => value v item :: values v rest
end

mutual
/-- The formula of a filter. A connective with one item is that item. -/
def formula : Filter → Formula Filter
  | .compare path op value => .atom (.compare path op value)
  | .like path pattern => .atom (.like path pattern)
  | .isNull path negated => .atom (.isNull path negated)
  | .between path low high => .atom (.between path low high)
  | .and items => .conj (formulas items)
  | .or items => .disj (formulas items)
  | .not item => .not (formula item)
/-- The formulas of some filters, in order. -/
def formulas : List Filter → List (Formula Filter)
  | [] => []
  | item :: rest => formula item :: formulas rest
end

theorem values_eq_map (v : Filter → Truth) (items : List Filter) : values v items = items.map (value v) := by
  induction items with
  | nil => rfl
  | cons f items ih => simp [values, ih]

theorem formulas_eq_map (items : List Filter) : formulas items = items.map formula := by
  induction items with
  | nil => rfl
  | cons f items ih => simp [formulas, ih]

/-- The formula of a filter says what the filter says. -/
theorem value_formula (v : Filter → Truth) (f : Filter) : f.formula.value v = f.value v := by
  induction f using Filter.induction with
  | compare path op value => rfl
  | like path pattern => rfl
  | isNull path negated => rfl
  | between path low high => rfl
  | and items ih =>
    rw [formula, value, formulas_eq_map, values_eq_map, Formula.value_conj, List.map_map]
    exact congrArg Truth.all (List.map_congr_left ih)
  | or items ih =>
    rw [formula, value, formulas_eq_map, values_eq_map, Formula.value_disj, List.map_map]
    exact congrArg Truth.any (List.map_congr_left ih)
  | not item ih => rw [formula, value, Formula.value, ih]

end Filter

/-! ## Keywords -/

namespace Sql

/-- The keywords that begin a statement or a clause behind its tables. -/
def clauseKeywords : List String := ["SELECT", "WHERE", "GROUP", "ORDER", "LIMIT", "OFFSET"]

/-- The keywords that do not stand in an operand. -/
def reserved : List String := connectives ++ clauseKeywords

theorem FreeOf.quiet {ps : List Part} (h : FreeOf reserved ps) : FreeOf connectives ps :=
  h.mono (List.subset_append_left _ _)

theorem FreeOf.inClause {ps : List Part} (h : FreeOf reserved ps) : FreeOf clauseKeywords ps :=
  h.mono (List.subset_append_right _ _)

/-- What stands in one clause does not begin like a statement. -/
theorem FreeOf.opensStatement {ps : List Part} (h : FreeOf clauseKeywords ps) : opensStatement ps = false := by
  cases ps with
  | nil => rfl
  | cons p ps =>
    simp only [FreeOf, List.all_cons, Part.isFree, clauseKeywords, Bool.and_eq_true, Bool.not_eq_true'] at h
    exact h.1.1

theorem FreeOf.connected {keywords : List String} {connective : String}
    (h : (Part.word (.plain connective)).isFree keywords) (gs : List (List Part)) :
    FreeOf keywords (connected connective gs) := by
  induction gs with
  | nil => rfl
  | cons ps gs ih =>
    cases gs with
    | nil => exact .group _ ps
    | cons qs gs =>
      have hword : FreeOf keywords [.word (.plain connective)] := by simpa [FreeOf] using h
      exact (FreeOf.group _ ps).append (hword.append ih)

end Sql

/-! ## Comparisons -/

/-- The lexemes of a token whose quoted texts and slots are changed. -/
def markedLexemes (mark : String → String) (t : Token String) : List Lexeme :=
  (t.rewrite mark).lexemes textLexemes

/-- A text that is read as one parameter. -/
def IsParameter (s : String) : Prop := ∃ m : Marker, m.Valid ∧ s = m.text

theorem IsParameter.textLexemes {s : String} (h : IsParameter s) :
    ∃ sigil name, textLexemes s = [.parameter sigil name] := by
  obtain ⟨m, hm, rfl⟩ := h
  exact ⟨_, _, hm.textLexemes⟩

theorem IsParameter.isReadable {s : String} (h : IsParameter s) : isReadable s := by
  obtain ⟨m, hm, rfl⟩ := h
  rw [Sql.isReadable, hm.run]
  rfl

theorem IsParameter.balanced {s : String} (h : IsParameter s) : Balanced (Sql.textLexemes s) := by
  obtain ⟨sigil, name, hs⟩ := h.textLexemes
  rw [hs]
  rfl

/-- The way into a JSON document. -/
theorem parts_traversal {β : Type} {g : Token β → List Lexeme} (htext : ∀ s, g (.text s) = textLexemes s)
    (content : String → String) (hkey : ∀ s, g (.key s) = [.quoted '\'' (content s)]) (steps : List String) :
    ∃ ps, parts ((Fragment.traversal steps).flatMap g) = some ps ∧ FreeOf reserved ps := by
  induction steps with
  | nil => exact ⟨[], rfl, rfl⟩
  | cons step rest ih =>
    have hstep : ∀ {arrow : String}, arrow = "->" ∨ arrow = "->>" →
        parts (g (Token.text arrow) ++ g (Token.key step)) =
          some [.word (.plain arrow), .word (.quoted '\'' (content step))] := by
      rintro arrow (rfl | rfl) <;> (rw [htext, hkey]; rfl)
    cases rest with
    | nil =>
      refine ⟨[.word (.plain "->>"), .word (.quoted '\'' (content step))], ?_, rfl⟩
      simpa [Fragment.traversal] using hstep (.inr rfl)
    | cons next rest =>
      obtain ⟨ps, hps, hfree⟩ := ih
      have hrest := parts_loose_append (hstep (.inl rfl)) hps (by rw [hkey, List.getLast?_concat]; rfl)
      rw [List.append_assoc] at hrest
      exact ⟨_, hrest, FreeOf.append (by rfl) hfree⟩

section Comparison

variable (mark : String → String)

/-- The left-hand side of a comparison with a column. -/
theorem parts_column (qualifier : Option String) (name : String) (steps : List String) :
    ∃ p ps, parts ((columnFragment qualifier name ++ Fragment.traversal steps).flatMap (markedLexemes mark)) =
      some (p :: ps) ∧ p.isWord "NOT" = false ∧ FreeOf reserved (p :: ps) := by
  obtain ⟨ps, hps, hfree⟩ := parts_traversal (g := markedLexemes mark) (fun _ => rfl) mark (fun _ => rfl) steps
  have hcolumn : ∃ p qs, parts ((columnFragment qualifier name).flatMap (markedLexemes mark)) = some (p :: qs) ∧
      p.isWord "NOT" = false ∧ FreeOf reserved (p :: qs) ∧
      ((columnFragment qualifier name).flatMap (markedLexemes mark)).getLast?.any Lexeme.isLoose = true := by
    cases qualifier with
    | none => exact ⟨.word (.quoted '"' (mark name)), [], rfl, rfl, rfl, rfl⟩
    | some t =>
      exact ⟨.word (.quoted '"' (mark t)), [.word (.plain "."), .word (.quoted '"' (mark name))], rfl, rfl, rfl, rfl⟩
  obtain ⟨p, qs, hqs, hnot, hfree', hlast⟩ := hcolumn
  refine ⟨p, qs ++ ps, ?_, hnot, hfree'.append hfree⟩
  rw [List.flatMap_append]
  exact parts_loose_append hqs hps hlast

/-- A comparison is an atom, if what is behind its left-hand side leaves it one. -/
theorem PathTarget.parts_predicate (p : ColumnPath) (table : Table) (qualifier : Option String)
    {condition : Fragment String} {cs : List Part} (hcs : parts (condition.flatMap (markedLexemes mark)) = some cs)
    (hclause : FreeOf clauseKeywords cs) (hlevel : condition.Level)
    (hslots : ∀ s ∈ condition.slots, Balanced (textLexemes (mark s)))
    (hatom : ∀ q qs, q.isWord "NOT" = false → FreeOf reserved (q :: qs) →
      readCondition (q :: qs ++ cs) = .atom (q :: qs ++ cs)) :
    ∃ ps, parts (((p.resolve table qualifier).predicate condition).flatMap (markedLexemes mark)) = some ps ∧
      readCondition ps = .atom ps ∧ FreeOf clauseKeywords ps := by
  have hplain : ∀ name steps, ∃ ps, parts (((columnFragment qualifier name ++ Fragment.traversal steps) ++
      Token.text " " :: condition).flatMap (markedLexemes mark)) = some ps ∧ readCondition ps = .atom ps ∧
      FreeOf clauseKeywords ps := by
    intro name steps
    obtain ⟨q, qs, hqs, hnot, hfree⟩ := parts_column mark qualifier name steps
    refine ⟨q :: qs ++ cs, ?_, hatom q qs hnot hfree, hfree.inClause.append hclause⟩
    have hblank : parts (textLexemes " ") = some [] := rfl
    rw [List.flatMap_append, List.flatMap_cons]
    exact parts_between hqs hblank hcs rfl rfl
  obtain ⟨name, -, h | h | h⟩ := p.resolve_cases table qualifier
  · rw [h]
    simpa [PathTarget.predicate, Fragment.traversal] using hplain name []
  · rw [h]
    exact hplain name _
  · -- a condition on the elements of an array is one operand in parentheses
    let inner : Fragment String := Token.text "Select 1 from unnest(" :: (columnFragment qualifier name ++
      Token.text ") as objects where " :: ((Token.text "objects" :: Fragment.traversal (p.segments.drop 1)) ++
        .text " " :: condition))
    have hinner : inner.Level := by
      have hsteps := Fragment.Shifts.traversal (β := String) (p.segments.drop 1)
      have hoperand : Fragment.Level (.text "objects" :: Fragment.traversal (β := String) (p.segments.drop 1)) :=
        .cons (by decide) hsteps
      have hwhere := hoperand.join (s := " ") (by decide) hlevel
      exact .cons (b := 1) (by decide) ((columnFragment_level qualifier name).inside.join (by decide) hwhere)
    have hslots' : ∀ s ∈ Fragment.slots (inner.map (Token.rewrite mark)), Balanced (textLexemes s) := by
      rw [Fragment.slots_rewrite]
      intro s hs
      obtain ⟨s', hs', rfl⟩ := List.mem_map.1 hs
      refine hslots s' ?_
      simpa [inner, Token.slots, slots_columnFragment, Fragment.slots_traversal] using hs'
    have hbalanced : Balanced (inner.flatMap (markedLexemes mark)) := by
      have h := (hinner.rewrite mark).lexemes hslots'
      rwa [List.flatMap_map] at h
    have hexists : parts (textLexemes "exists ") = some [.word (.plain "exists")] := rfl
    obtain ⟨qs, hqs⟩ := exists_parts_call hexists hbalanced
    have hfree : FreeOf reserved [.word (.plain "exists"), .group qs] := by rfl
    refine ⟨_, ?_, readCondition_quiet (by decide) (by simp) hfree.quiet, hfree.inClause⟩
    rw [h]
    refine Eq.trans (congrArg parts ?_) hqs
    have hopen : textLexemes "exists (Select 1 from unnest(" =
        textLexemes "exists " ++ Lexeme.char '(' :: textLexemes "Select 1 from unnest(" := by decide
    have hclose : textLexemes ")" = [.char ')'] := by decide
    simp [PathTarget.predicate, inner, markedLexemes, Token.rewrite, Token.lexemes, hopen, hclose]

end Comparison

/-! ## Filters -/

namespace Filter

section Reading

variable {mark : String → String} {table : Table} {qualifier : Option String} {known : String → Prop}
  {leaf : Filter → List Part}
  (hmark : ∀ n, known n → IsParameter (mark ("@" ++ n)))
  (hleaf : ∀ f : Filter, (∀ n ∈ f.names, known n) →
    parts ((f.fragment table qualifier).flatMap (markedLexemes mark)) = some (leaf f))

omit hmark hleaf in
/-- What is known of the names of a connective is known of those of its items. -/
theorem known_items {items : List Filter} (h : ∀ n ∈ (parametersOf items).map (·.name), known n) :
    ∀ f ∈ items, ∀ n ∈ f.names, known n := by
  rw [names_connective] at h
  exact fun f hf n hn => h n (List.mem_flatMap.2 ⟨f, hf, hn⟩)

include hleaf

/-- The items of a connective stand in parentheses. -/
theorem parts_items (connective separator : String)
    (hwords : parts (textLexemes separator) = some [.word (.plain connective)])
    (hhead : (textLexemes separator).head?.any Lexeme.isLoose = true)
    (hlast : (textLexemes separator).getLast?.any Lexeme.isLoose = true) {items : List Filter} (hne : items ≠ [])
    (hitems : ∀ f ∈ items, ∀ n ∈ f.names, known n) :
    parts ((Fragment.separated separator (items.map fun f =>
      Fragment.parenthesized (f.fragment table qualifier))).flatMap (markedLexemes mark)) =
        some (connected connective (items.map leaf)) := by
  have hparts : List.Forall₂ (fun F ps => parts (F.flatMap (markedLexemes mark)) = some ps)
      (items.map fun f => f.fragment table qualifier) (items.map leaf) := by
    rw [List.forall₂_map_left_iff, List.forall₂_map_right_iff]
    exact List.forall₂_same.2 fun f hf => hleaf f (hitems f hf)
  have hall := parts_connected (g := markedLexemes mark) (fun _ => rfl) hwords hhead hlast hparts (by simpa using hne)
  rwa [List.map_map] at hall

include hmark

/-- A comparison is read as an atom. -/
theorem readCondition_predicate {f : Filter} (hf : ∀ n ∈ f.names, known n) {path : String}
    {condition : Fragment String} (cs : List Part)
    (hfragment : f.fragment table qualifier = ((ColumnPath.parse path).resolve table qualifier).predicate condition)
    (hlevel : condition.Level) (hcs : parts (condition.flatMap (markedLexemes mark)) = some cs)
    (hclause : FreeOf clauseKeywords cs)
    (hatom : ∀ q qs, q.isWord "NOT" = false → FreeOf reserved (q :: qs) →
      readCondition (q :: qs ++ cs) = .atom (q :: qs ++ cs)) :
    readCondition (leaf f) = .atom (leaf f) ∧ FreeOf clauseKeywords (leaf f) := by
  have hslots : ∀ s ∈ condition.slots, Balanced (textLexemes (mark s)) := by
    have ht := (ColumnPath.parse path).slots_resolve table qualifier
    intro s hs
    rw [← PathTarget.slots_predicate ht.1 ht.2, ← hfragment, slots_fragment] at hs
    obtain ⟨n, hn, rfl⟩ := List.mem_map.1 hs
    exact (hmark n (hf n hn)).balanced
  obtain ⟨ps, hps, hread, hclause⟩ :=
    PathTarget.parts_predicate mark (ColumnPath.parse path) table qualifier hcs hclause hlevel hslots hatom
  rw [← hfragment, hleaf f hf, Option.some.injEq] at hps
  rw [hps]
  exact ⟨hread, hclause⟩

/-- **A filter is read as its formula**, with the parts of each comparison as
an atom. -/
theorem readCondition_parts (f : Filter) (hf : ∀ n ∈ f.names, known n) :
    readCondition (leaf f) = f.formula.map leaf ∧ FreeOf clauseKeywords (leaf f) := by
  have hquiet : ∀ {cs : List Part}, cs ≠ [] → FreeOf reserved cs → ∀ (q : Part) (qs : List Part),
      q.isWord "NOT" = false → FreeOf reserved (q :: qs) → readCondition (q :: qs ++ cs) = .atom (q :: qs ++ cs) := by
    intro cs hne hcs q qs hnot hqs
    exact readCondition_quiet hnot (by simp [hne]) (hqs.append hcs).quiet
  induction f using Filter.induction with
  | compare path op value =>
    obtain ⟨sigil, name, htoken⟩ := (hmark value.name (hf _ (by simp [names, parameters]))).textLexemes
    refine readCondition_predicate hmark hleaf hf [.word (.plain op.symbol), .word (.parameter sigil name)] rfl
      ?_ ?_ ?_ (hquiet (by simp) ?_)
    · exact .cons (b := 0) (by cases op <;> decide) (.cons (by decide) (.slot 0 _))
    · simp only [FilterParameter.token, List.flatMap_cons, List.flatMap_nil, markedLexemes, Token.rewrite,
        Token.lexemes, htoken]
      cases op <;> rfl
    · cases op <;> rfl
    · cases op <;> rfl
  | like path pattern =>
    obtain ⟨sigil, name, htoken⟩ := (hmark pattern.name (hf _ (by simp [names, parameters]))).textLexemes
    refine readCondition_predicate hmark hleaf hf [.word (.plain "LIKE"), .word (.parameter sigil name)] rfl
      (.cons (by decide) (.slot 0 _)) ?_ (by rfl) (hquiet (by simp) (by rfl))
    simp only [FilterParameter.token, List.flatMap_cons, List.flatMap_nil, markedLexemes, Token.rewrite,
      Token.lexemes, htoken]
    rfl
  | isNull path negated =>
    refine readCondition_predicate hmark hleaf hf (if negated
      then [.word (.plain "IS"), .word (.plain "NOT"), .word (.plain "NULL")]
      else [.word (.plain "IS"), .word (.plain "NULL")]) rfl ?_ ?_ ?_ (hquiet ?_ ?_)
    all_goals cases negated
    all_goals first | rfl | decide
  | between path low high =>
    obtain ⟨sigil, name, hlow⟩ := (hmark low.name (hf _ (by simp [names, parameters]))).textLexemes
    obtain ⟨sigil', name', hhigh⟩ := (hmark high.name (hf _ (by simp [names, parameters]))).textLexemes
    refine readCondition_predicate hmark hleaf hf (.word (.plain "BETWEEN") ::
      ([Part.word (.parameter sigil name)] ++ Part.word (Word.plain "AND") ::
        [Part.word (.parameter sigil' name')])) rfl
      (.cons (by decide) ((Fragment.Shifts.slot 0 _).join (by decide) (.slot 0 _))) ?_ ?_ ?_
    · simp only [FilterParameter.token, List.flatMap_cons, List.flatMap_nil, markedLexemes, Token.rewrite,
        Token.lexemes, hlow, hhigh]
      rfl
    · rfl
    · exact fun q qs hnot hqs => readCondition_between hnot hqs.quiet (by rfl) (by rfl)
  | and items ih =>
    have hitems := known_items hf
    cases items with
    | nil =>
      have htrue : leaf (.and []) = [.word (.plain "TRUE")] := (Option.some.inj (hleaf (.and []) hf)).symm
      rw [htrue]
      exact ⟨rfl, rfl⟩
    | cons f items =>
      have hparts := parts_items hleaf "AND" " AND " rfl rfl rfl (by simp) hitems
      rw [← fragment_and_cons, hleaf _ hf, Option.some.injEq] at hparts
      have hread := fun g hg => ih g hg (hitems g hg)
      rw [hparts, readCondition_all (by simp) (by simpa using fun g hg => (hread g hg).2.opensStatement), formula,
        Formula.map_conj, formulas_eq_map, List.map_map, List.map_map]
      exact ⟨congrArg Formula.conj (List.map_congr_left fun g hg => (hread g hg).1), .connected (by decide) _⟩
  | or items ih =>
    have hitems := known_items hf
    cases items with
    | nil =>
      have hfalse : leaf (.or []) = [.word (.plain "FALSE")] := (Option.some.inj (hleaf (.or []) hf)).symm
      rw [hfalse]
      exact ⟨rfl, rfl⟩
    | cons f items =>
      have hparts := parts_items hleaf "OR" " OR " rfl rfl rfl (by simp) hitems
      rw [← fragment_or_cons, hleaf _ hf, Option.some.injEq] at hparts
      have hread := fun g hg => ih g hg (hitems g hg)
      rw [hparts, readCondition_any (by simp) (by simpa using fun g hg => (hread g hg).2.opensStatement), formula,
        Formula.map_disj, formulas_eq_map, List.map_map, List.map_map]
      exact ⟨congrArg Formula.disj (List.map_congr_left fun g hg => (hread g hg).1), .connected (by decide) _⟩
  | not item ih =>
    obtain ⟨hread, hclause⟩ := ih hf
    have hnot : leaf (.not item) = [.word (.plain "NOT"), .group (leaf item)] := by
      have hopen : textLexemes "NOT (" = textLexemes "NOT " ++ [Lexeme.char '('] := by decide
      have hclose : textLexemes ")" = [.char ')'] := by decide
      have hsame : ((Filter.not item).fragment table qualifier).flatMap (markedLexemes mark) = textLexemes "NOT " ++
          Lexeme.char '(' :: ((item.fragment table qualifier).flatMap (markedLexemes mark) ++ [Lexeme.char ')']) := by
        simp [fragment, markedLexemes, Token.rewrite, Token.lexemes, hopen, hclose]
      have hword : parts (textLexemes "NOT ") = some [.word (.plain "NOT")] := rfl
      have hparts := parts_append_of_loose hword (parts_parenthesized (hleaf item hf)) rfl
      rw [← hsame, hleaf (.not item) hf] at hparts
      exact Option.some.inj hparts
    rw [hnot, readCondition_not hclause.opensStatement, hread, formula, Formula.map]
    exact ⟨rfl, by rfl⟩

end Reading

/-! ## Texts of filters -/

/-- The text of a filter whose parameters are written as such is read as its
parts. -/
theorem exists_textParts (mark : String → String) (table : Table) (qualifier : Option String) {f : Filter}
    (h : ∀ n ∈ f.names, IsParameter (mark ("@" ++ n))) :
    ∃ ps, textParts (Fragment.render ((f.fragment table qualifier).map (Token.rewrite mark))) = some ps ∧
      parts ((f.fragment table qualifier).flatMap (markedLexemes mark)) = some ps := by
  have hslots : ∀ s ∈ Fragment.slots ((f.fragment table qualifier).map (Token.rewrite mark)), IsParameter s := by
    rw [Fragment.slots_rewrite, slots_fragment, List.map_map]
    intro s hs
    obtain ⟨n, hn, rfl⟩ := List.mem_map.1 hs
    exact h n hn
  have hlex := ((f.fragment_legible table qualifier).rewrite mark).lex fun s hs => (hslots s hs).isReadable
  have hbalanced := ((f.fragment_level table qualifier).rewrite mark).lexemes fun s hs => (hslots s hs).balanced
  obtain ⟨ps, hps⟩ := exists_parts hbalanced
  refine ⟨ps, ?_, ?_⟩
  · rw [textParts, hlex]
    exact hps
  · rw [List.flatMap_map] at hps
    exact hps

end Filter

theorem Sql.Fragment.rewrite_id (f : Fragment String) : f.map (Token.rewrite id) = f := by
  refine (List.map_congr_left fun t _ => ?_).trans (List.map_id f)
  cases t <;> rfl

theorem IsIdentifier.isParameter {n : String} (h : IsIdentifier n) : IsParameter ("@" ++ n) := by
  refine ⟨ParameterStyle.named.marker n, h.marker_valid, ?_⟩
  rw [← String.toList_inj, toList_at, Marker.text, String.toList_ofList]
  rfl

/-- The parts of a filter's own text. -/
def Filter.ownParts (table : Table) (qualifier : Option String) (f : Filter) : List Part :=
  (textParts (f.command table qualifier).text).getD []

/-- **The text of a filter is read as its formula.** -/
theorem Filter.read_command (table : Table) (qualifier : Option String) {f : Filter}
    (h : ∀ n ∈ f.names, IsIdentifier n) :
    textParts (f.command table qualifier).text = some (f.ownParts table qualifier) ∧
      readCondition (f.ownParts table qualifier) = f.formula.map (Filter.ownParts table qualifier) := by
  have hparts : ∀ g : Filter, (∀ n ∈ g.names, IsIdentifier n) →
      textParts (g.command table qualifier).text = some (g.ownParts table qualifier) ∧
        parts ((g.fragment table qualifier).flatMap (markedLexemes id)) = some (g.ownParts table qualifier) := by
    intro g hg
    obtain ⟨ps, htext, hps⟩ := exists_textParts id table qualifier fun n hn => (hg n hn).isParameter
    rw [Fragment.rewrite_id] at htext
    have hown : g.ownParts table qualifier = ps := congrArg (·.getD []) htext
    rw [hown]
    exact ⟨htext, hps⟩
  exact ⟨(hparts f h).1, (readCondition_parts (fun n hn => hn.isParameter) (fun g hg => (hparts g hg).2) f h).1⟩

/-! ## Texts of filters that are taken over -/

namespace Registry

/-- What taking over bindings makes of a text. -/
def renamed (r : Registry) (es : List Entry) (s : String) : String := (es.foldl absorbBinding (s, r)).1

theorem renamed_cons_named {r : Registry} (hstyle : r.style = .named) (e : Entry) (es : List Entry) (s : String) :
    r.renamed (e :: es) s = renamed { r with parameters := r.parameters.insert e.1 e.2 } es s := by
  simp [renamed, absorbBinding, hstyle]

theorem renamed_cons_positional {r : Registry} (hstyle : r.style = .positional) (e : Entry) (es : List Entry)
    (s : String) : r.renamed (e :: es) s =
      (r.add e.2).2.renamed es (Text.replaceAll ("@" ++ e.1) ("$" ++ toString (r.parameters.size + 1)) s) := by
  simp [renamed, absorbBinding, hstyle, Registry.add, Registry.token, Registry.nextName]

/-- In named style a text stays as it is. -/
theorem renamed_named {r : Registry} (hstyle : r.style = .named) (es : List Entry) (s : String) :
    r.renamed es s = s := by
  induction es generalizing r with
  | nil => rfl
  | cons e es ih =>
    rw [renamed_cons_named hstyle]
    exact ih hstyle

/-- A text without the sign of a parameter stays as it is. -/
theorem renamed_of_notMem {s : String} (h : '@' ∉ s.toList) (r : Registry) (es : List Entry) : r.renamed es s = s := by
  induction es generalizing r with
  | nil => rfl
  | cons e es ih =>
    cases hstyle : r.style with
    | named =>
      rw [renamed_cons_named hstyle]
      exact ih _
    | positional =>
      rw [renamed_cons_positional hstyle, replaceAll_of_notMem h]
      exact ih _

theorem isSigns_number (n : Nat) : isSigns ("$" ++ toString n) := isSigns_append (by decide) (isSigns_toString n)

/-- Bindings are taken over within the tokens of a text. -/
theorem renamed_render {es : List Entry} (hes : ∀ e ∈ es, IsIdentifier e.1) (r : Registry) {f : Fragment String}
    (hf : f.Legible) : r.renamed es (Fragment.render f) = Fragment.render (f.map (Token.rewrite (r.renamed es))) := by
  induction es generalizing r f with
  | nil => exact congrArg Fragment.render f.rewrite_id.symm
  | cons e es ih =>
    have hrest : ∀ d ∈ es, IsIdentifier d.1 := fun d hd => hes d (by simp [hd])
    cases hstyle : r.style with
    | named =>
      have hsame : r.renamed (e :: es) = id := funext fun s => renamed_named hstyle _ s
      rw [hsame, Fragment.rewrite_id]
      rfl
    | positional =>
      rw [renamed_cons_positional hstyle, replaceAll_tokens (hes e (by simp)).2 (isSigns_number _) hf,
        ih hrest _ (hf.rewrite _), List.map_map]
      refine congrArg Fragment.render (List.map_congr_left fun t _ => ?_)
      cases t <;> simp [Token.rewrite, renamed_cons_positional hstyle]

/-- Nothing is replaced in what holds no sign of a parameter. -/
theorem replaceFrom_of_notMem (m : String) {s : String} (h : '@' ∉ s.toList) (new : String) :
    Text.replaceFrom ('@' :: m.toList) new.toList 0 s.toList = s.toList := by
  have hplain : Text.replaceFrom ('@' :: m.toList) new.toList 0 (s.toList ++ []) = _ := Text.replaceFrom_plain h []
  simpa [Text.replaceFrom] using hplain

/-- Replacing a name at the beginning of a token. -/
theorem replaceAll_token {m rest : String} (h : '@' ∉ rest.toList) (new : String) :
    Text.replaceAll ("@" ++ m) new ("@" ++ (m ++ rest)) = new ++ rest := by
  have hfound : Text.replaceFrom ('@' :: m.toList) new.toList 0 ('@' :: m.toList ++ rest.toList) = _ :=
    Text.replaceFrom_occurrence '@' m.toList rest.toList
  rw [replaceFrom_of_notMem m h] at hfound
  rw [← String.toList_inj, Text.replaceAll, String.toList_ofList, toList_at, toList_at, String.toList_append,
    String.toList_append]
  exact hfound

/-- A name that does not begin the token is not found in it. -/
theorem replaceAll_other {m n : String} (h : ¬m.toList <+: n.toList) (hn : '@' ∉ n.toList) (new : String) :
    Text.replaceAll ("@" ++ m) new ("@" ++ n) = "@" ++ n := by
  have hfound : ('@' :: m.toList).isPrefixOf ('@' :: n.toList) = false := by
    rw [Bool.eq_false_iff, Ne, List.isPrefixOf_iff_prefix, List.cons_prefix_cons]
    exact fun hp => h hp.2
  rw [← String.toList_inj, Text.replaceAll, String.toList_ofList, toList_at, toList_at, Text.replaceFrom, hfound,
    replaceFrom_of_notMem m hn]
  rfl

/-- A number with digits behind it is one parameter. -/
theorem isParameter_number (k : Nat) {rest : String} (h : ∀ c ∈ rest.toList, c.isDigit) :
    IsParameter ("$" ++ toString k ++ rest) := by
  refine ⟨⟨'$', toString k ++ rest⟩, ⟨.inr rfl, ?_, fun c hc => ?_⟩, ?_⟩
  · simp
  · rw [String.toList_append, List.mem_append] at hc
    exact hc.elim isDigit_of_mem_toString (h c)
  · rw [← String.toList_inj, Marker.text, String.toList_ofList]
    simp

/-- **A token stays a token** when it is taken over, if what a shorter name
leaves of its own is digits. -/
theorem renamed_token {es : List Entry} (r : Registry) {n : String} (hn : IsIdentifier n)
    (hmem : n ∈ es.map (·.1)) (hdigits : r.style = .positional → ∀ m ∈ es.map (·.1), ∀ rest : String, n = m ++ rest →
      ∀ c ∈ rest.toList, c.isDigit) : IsParameter (r.renamed es ("@" ++ n)) := by
  cases hstyle : r.style with
  | named =>
    rw [renamed_named hstyle]
    exact hn.isParameter
  | positional =>
    replace hdigits := hdigits hstyle
    induction es generalizing r with
    | nil => cases hmem
    | cons e es ih =>
      rw [renamed_cons_positional hstyle]
      by_cases hp : e.1.toList <+: n.toList
      · obtain ⟨rest, hrest⟩ := hp
        obtain rfl : n = e.1 ++ String.ofList rest := by
          rw [← String.toList_inj, String.toList_append, String.toList_ofList, hrest]
        have hd := hdigits e.1 (by simp) (String.ofList rest) rfl
        have hat : '@' ∉ (String.ofList rest).toList := fun h => absurd (hd '@' h) (by decide)
        have hnumber := isParameter_number (r.parameters.size + 1) hd
        rw [replaceAll_token hat, renamed_of_notMem]
        · exact hnumber
        · simp only [String.toList_append, List.mem_append, not_or]
          exact ⟨⟨by decide, fun h => absurd (isDigit_of_mem_toString h) (by decide)⟩, hat⟩
      · rw [replaceAll_other hp hn.at_notMem]
        have hne : n ≠ e.1 := by
          rintro rfl
          exact hp (List.prefix_refl _)
        exact ih _ (by simpa [hne] using hmem) hstyle fun m hm => hdigits m (List.mem_cons_of_mem _ hm)

end Registry

/-- Every name that is set is there. -/
theorem Parameters.subset_names_ofList (bs : List Entry) : bs.map (·.1) ⊆ (Parameters.ofList bs).names := by
  have hfold : ∀ (bs : List Entry) (ps : Parameters), ps.names ⊆ (bs.foldl (fun ps e => ps.insert e.1 e.2) ps).names ∧
      bs.map (·.1) ⊆ (bs.foldl (fun ps e => ps.insert e.1 e.2) ps).names := by
    intro bs
    induction bs with
    | nil => exact fun ps => ⟨List.Subset.refl _, by simp⟩
    | cons e bs ih =>
      intro ps
      obtain ⟨hps, hbs⟩ := ih (ps.insert e.1 e.2)
      refine ⟨fun n hn => hps (mem_names_insert.2 (.inr hn)), List.cons_subset.2 ⟨?_, hbs⟩⟩
      exact hps (mem_names_insert.2 (.inl rfl))
  exact (hfold bs .empty).2

theorem Filter.mem_names_command {f : Filter} {table : Table} {qualifier : Option String} {n : String} :
    n ∈ (f.command table qualifier).parameters.names ↔ n ∈ f.names := by
  rw [← Filter.bindings_names table qualifier]
  exact ⟨fun hn => Parameters.names_ofList_subset _ hn, fun hn => Parameters.subset_names_ofList _ hn⟩

/-- Where a name of a filter begins another one, digits follow. -/
def Filter.Parted (f : Filter) : Prop :=
  ∀ m ∈ f.names, ∀ n ∈ f.names, m.toList <+: n.toList → (n.toList.drop m.toList.length).all Char.isDigit

instance (f : Filter) : Decidable f.Parted :=
  inferInstanceAs (Decidable (∀ m ∈ f.names, ∀ n ∈ f.names, m.toList <+: n.toList →
    (n.toList.drop m.toList.length).all Char.isDigit))

/-- The parts of a condition inside a filter, in the text that the filter has
when it is taken over. -/
def Filter.partsIn (f : Filter) (r : Registry) (table : Table) (qualifier : Option String) (g : Filter) : List Part :=
  (textParts (r.absorb ⟨(g.command table qualifier).text, (f.command table qualifier).parameters⟩).1).getD []

/-- **A filter that is taken over is read as its formula.** -/
theorem Filter.read_absorb (r : Registry) (table : Table) (qualifier : Option String) {f : Filter}
    (h : ∀ n ∈ f.names, IsIdentifier n) (hparted : r.style = .positional → f.Parted) :
    textParts (r.absorb (f.command table qualifier)).1 = some (f.partsIn r table qualifier f) ∧
      readCondition (f.partsIn r table qualifier f) = f.formula.map (f.partsIn r table qualifier) ∧
      FreeOf clauseKeywords (f.partsIn r table qualifier f) := by
  let es := (f.command table qualifier).parameters.toList
  have hnames : ∀ n, n ∈ es.map (·.1) ↔ n ∈ f.names := fun _ => Filter.mem_names_command
  have hes : ∀ e ∈ es, IsIdentifier e.1 := fun e he => h e.1 ((hnames e.1).1 (List.mem_map.2 ⟨e, he, rfl⟩))
  have hmark : ∀ n, n ∈ f.names → IsParameter (r.renamed es ("@" ++ n)) := by
    intro n hn
    refine r.renamed_token (h n hn) ((hnames n).2 hn) fun hstyle m hm rest hrest => ?_
    have hdigits := hparted hstyle m ((hnames m).1 hm) n hn
    rw [hrest, String.toList_append, List.drop_left] at hdigits
    exact List.all_eq_true.1 (hdigits (List.prefix_append _ _))
  have hparts : ∀ g : Filter, (∀ n ∈ g.names, n ∈ f.names) →
      textParts (r.absorb ⟨(g.command table qualifier).text, (f.command table qualifier).parameters⟩).1 =
        some (f.partsIn r table qualifier g) ∧
      parts ((g.fragment table qualifier).flatMap (markedLexemes (r.renamed es))) =
        some (f.partsIn r table qualifier g) := by
    intro g hg
    obtain ⟨ps, htext, hps⟩ := exists_textParts (r.renamed es) table qualifier fun n hn => hmark n (hg n hn)
    rw [← Registry.renamed_render hes r (g.fragment_legible table qualifier)] at htext
    have hown : f.partsIn r table qualifier g = ps := congrArg (·.getD []) htext
    rw [hown]
    exact ⟨htext, hps⟩
  have hself := fun n (hn : n ∈ f.names) => hn
  exact ⟨(hparts f hself).1, readCondition_parts hmark (fun g hg => (hparts g hg).2) f hself⟩

end ParamQuery
