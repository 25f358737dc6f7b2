/-
The conditions of joins. A join compares an outer and an inner key, and so does
the number of rows in a group; the texts of the keys are written on either side of
an equality as they are.

`keys_equated`: the condition is read as the equality of its keys if they bind
more strongly than an equality at the edges that they turn to it, and not
otherwise. Of plain keys only negations, comparisons, conjunctions and
disjunctions do not in front of the equality (`Expr.wholeBefore`), and only null
tests, comparisons, conjunctions and disjunctions do not behind it
(`Expr.wholeBehind`). A disjunction as the outer key of a join is torn apart
(`eitherKey_regrouped`).
-/
import ParamQuery.Proofs.BareSlots
import ParamQuery.Proofs.CallOperands
import ParamQuery.Proofs.EmittedSlots

namespace ParamQuery

open Sql

/-! ## Keys beside an equality -/

/-- Whether a plain expression stays whole in front of an equality. -/
def Expr.wholeBefore : Expr → Bool
  | .binary op left right =>
    op.isEquality && (left.isNull || right.isNull) || !(op.isComparison || op.isLogical)
  | .unary .not _ => false
  | _ => true

/-- Whether a plain expression stays whole behind an equality. -/
def Expr.wholeBehind : Expr → Bool
  | .binary op _ _ => !(op.isComparison || op.isLogical)
  | _ => true

theorem rank_operatorOf (op : BinaryOp) (left right : Expr) :
    Method.equality.rank < (Operator.binary (Expr.operatorOf op left right)).rank ↔
      (op.isComparison || op.isLogical) = false := by
  unfold Expr.operatorOf
  split
  · rename_i hconcat
    obtain rfl : op = .add := by
      simp only [Expr.isConcatenation, Bool.and_eq_true, beq_iff_eq] at hconcat
      exact hconcat.1
    decide
  · cases op <;> decide

/-- What nothing can tear apart stays whole. -/
theorem equality_lt_atom : Method.equality.rank < Precedence.ranks.atom := by decide

theorem equality_lt_arrow (last : Bool) : Method.equality.rank < (Operator.arrow last).rank := by
  cases last <;> decide

/-- A member is a column, a way into a document or a length. -/
theorem ranks_memberTree {α : Type} (column key : String → α) (path : List String) :
    Method.equality.rank < (memberTree column key path).leftStrength .ranks ∧
      Method.equality.rank < (memberTree column key path).rightStrength .ranks := by
  have harrows : ∀ (steps : List String) (t : Tree Head α), Method.equality.rank < t.leftStrength .ranks →
      Method.equality.rank < t.rightStrength .ranks → Method.equality.rank < (arrows key t steps).leftStrength .ranks ∧
        Method.equality.rank < (arrows key t steps).rightStrength .ranks := by
    intro steps
    induction steps with
    | nil => exact fun t hl hr => ⟨hl, hr⟩
    | cons step steps ih =>
      intro t _ _
      cases steps with
      | nil => exact ⟨equality_lt_arrow true, equality_lt_arrow true⟩
      | cons step' steps => exact ih _ (equality_lt_arrow false) (equality_lt_arrow false)
  unfold memberTree
  cases lengthDepth path with
  | zero => exact harrows _ _ equality_lt_atom equality_lt_atom
  | succ n => exact ⟨equality_lt_atom, equality_lt_atom⟩

/-- How strongly an expression binds to an equality on either side of it. -/
theorem Expr.ranks_tree (e : Expr) :
    (Method.equality.rank < e.tree.rightStrength .ranks ↔ e.wholeBefore) ∧
      (Method.equality.rank < e.tree.leftStrength .ranks ↔ e.wholeBehind) := by
  have hatom := equality_lt_atom
  have hnull : ¬Method.equality.rank < Precedence.ranks.nullTest := by decide
  cases e with
  | binary op left right =>
    have hcomparison : op.isEquality → op.isComparison := by cases op <;> decide
    have htree : (Expr.binary op left right).tree =
        if op.isEquality && right.isNull then .nullTest left.tree (op == .notEqual)
        else if op.isEquality && left.isNull then .nullTest right.tree (op == .notEqual)
        else .operation (.binary (Expr.operatorOf op left right)) left.tree right.tree := rfl
    have htest (hop : op.isEquality) (hn : left.isNull || right.isNull) :
        (Expr.binary op left right).wholeBefore ∧ ¬(Expr.binary op left right).wholeBehind := by
      simp [Expr.wholeBefore, Expr.wholeBehind, hop, hn, hcomparison hop]
    rw [htree]
    split
    · rename_i hright
      rw [Bool.and_eq_true] at hright
      obtain ⟨hbefore, hbehind⟩ := htest hright.1 (by simp [hright.2])
      exact ⟨iff_of_true hatom hbefore, iff_of_false hnull hbehind⟩
    · split
      · rename_i hleft
        rw [Bool.and_eq_true] at hleft
        obtain ⟨hbefore, hbehind⟩ := htest hleft.1 (by simp [hleft.2])
        exact ⟨iff_of_true hatom hbefore, iff_of_false hnull hbehind⟩
      · rename_i hright hleft
        have hbefore : (op.isEquality && (left.isNull || right.isNull)) = false := by
          simp only [Bool.and_eq_true, not_and, Bool.not_eq_true] at hright hleft
          cases hop : op.isEquality with
          | false => rfl
          | true => simp [hright hop, hleft hop]
        have hrank := rank_operatorOf op left right
        rw [Expr.wholeBefore, Expr.wholeBehind, hbefore, Bool.false_or, Bool.not_eq_true']
        exact ⟨hrank, hrank⟩
  | member root path type =>
    obtain ⟨hleft, hright⟩ := ranks_memberTree (Atom.column root) Atom.key path
    exact ⟨iff_of_true hright rfl, iff_of_true hleft rfl⟩
  | call method receiver arguments =>
    have hgroup : (Expr.call method receiver arguments).tree.leftStrength .ranks = Precedence.ranks.atom ∧
        (Expr.call method receiver arguments).tree.rightStrength .ranks = Precedence.ranks.atom := by
      simp only [Expr.tree, Expr.branches, caseTree]
      split <;> exact ⟨rfl, rfl⟩
    rw [hgroup.1, hgroup.2]
    exact ⟨iff_of_true hatom rfl, iff_of_true hatom rfl⟩
  | unary op operand =>
    cases op with
    | not => exact ⟨iff_of_false (by decide : ¬Method.equality.rank < Precedence.ranks.negation) Bool.false_ne_true,
        iff_of_true hatom rfl⟩
    | convert | typeAs => exact ⟨iff_of_true hatom rfl, iff_of_true hatom rfl⟩
  | source | subquery | conditional | constant | project => exact ⟨iff_of_true hatom rfl, iff_of_true hatom rfl⟩

/-! ## Conditions -/

/-- A key with what decides how it is written. -/
structure Key where
  scope : Scope
  beside : Bool
  expr : Expr

/-- The condition is the texts of two keys with an equality between them. Whenever
these are read as phrases, as those of plain keys are, the condition is read as the
equality of the phrases if, and only if, they bind strongly enough; if both keys are
plain, the keys themselves say whether they do. -/
structure EquatesKeys (run : List (Slot × String)) (left right : Key) (l r condition : String) : Prop where
  before : left.expr.SplicedAs left.scope run left.beside l
  behind : right.expr.SplicedAs right.scope run right.beside r
  written : condition = l ++ " = " ++ r
  reading : ∀ x y, readPhrase l = some x → readPhrase r = some y →
    (readPhrase condition = some (.operation Method.equality x y) ↔
      Method.equality.rank < x.rightEdge .ranks ∧ Method.equality.rank < y.leftEdge .ranks)
  plain : left.expr.Plain → right.expr.Plain → ∀ x y, readPhrase l = some x → readPhrase r = some y →
    (readPhrase condition = some (.operation Method.equality x y) ↔ left.expr.wholeBefore ∧ right.expr.wholeBehind)

theorem padded_equal : (Infix.operator .equal).padded = " = " := by decide

theorem render_equation (v w : Term String) :
    (Term.operation v (.operator .equal) w).render = v.render ++ " = " ++ w.render := by
  simp [Term.render, Term.fragment, Token.render, padded_equal, String.append_assoc]

/-- Two phrases with an equality between them. -/
theorem readWords_equation {l k : List Lexeme} {x y : ReadTree} (hx : readWords .ranks (words l) = some x)
    (hy : readWords .ranks (words k) = some y) :
    readWords .ranks (words (l ++ (textLexemes " = " ++ k))) = some (.operation Method.equality x y) ↔
      Method.equality.rank < x.rightEdge .ranks ∧ Method.equality.rank < y.leftEdge .ranks := by
  obtain ⟨hphrase, hwords⟩ := readWords_iff.1 hx
  obtain ⟨hphrase', hwords'⟩ := readWords_iff.1 hy
  have hall : (Tree.operation Method.equality x y : ReadTree).words = words (l ++ (textLexemes " = " ++ k)) := by
    rw [words_between (by decide) (by decide), ← hwords, ← hwords']
    rfl
  have hstops : Precedence.ranks.StopsAt Method.equality.rank (x.rightEdge .ranks) ↔
      Method.equality.rank < x.rightEdge .ranks := stopsAt_of_not_chains rfl
  rw [readWords_iff, and_iff_left hall, Tree.isPhrase_operation, and_iff_right hphrase, and_iff_right hphrase']
  exact and_congr hstops Iff.rfl

/-- **Filled keys with an equality between them.** -/
theorem equatesKeys_of_emit {run : List (Slot × String)} {spell : Slot × String → Fragment String} {left right : Key}
    {v w : Term (Slot × String)} (hv : v.map Prod.fst = (left.expr.emit left.scope {} left.beside).term)
    (hw : w.map Prod.fst = (right.expr.emit right.scope {} right.beside).term)
    (hbuilt : ∀ u ∈ [v, w], u.Built (fun _ _ _ => True) fun p => p.1.Takes Filter.Named)
    (hrun : ∀ u ∈ [v, w], u.slots ⊆ run) (haccepted : ∀ p ∈ run, p.1.isAccepted)
    (hspell : ∀ p ∈ run, Spelled p (spell p)) :
    EquatesKeys run left right (v.map Prod.snd).render (w.map Prod.snd).render
      ((v.map Prod.snd).render ++ " = " ++ (w.map Prod.snd).render) := by
  simp only [List.mem_cons, List.not_mem_nil, or_false, forall_eq_or_imp, forall_eq] at hbuilt hrun
  have hread {u : Term (Slot × String)} (hu : u.Built (fun _ _ _ => True) fun p => p.1.Takes Filter.Named)
      (hslots : u.slots ⊆ run) : readPhrase (u.map Prod.snd).render =
        readWords .ranks (words (u.fragment.flatMap (Token.lexemes (spelling spell)))) := by
    rw [readPhrase, readTree, hu.lex_render hslots hspell]
    rfl
  have hcondition : readPhrase ((v.map Prod.snd).render ++ " = " ++ (w.map Prod.snd).render) =
      readWords .ranks (words (v.fragment.flatMap (Token.lexemes (spelling spell)) ++
        (textLexemes " = " ++ w.fragment.flatMap (Token.lexemes (spelling spell))))) := by
    have hequation : Term.map Prod.snd (.operation v (.operator .equal) w) =
      .operation (v.map Prod.snd) (.operator .equal) (w.map Prod.snd) := rfl
    rw [← render_equation, ← hequation, hread (.operation _ hbuilt.1 hbuilt.2) (List.append_subset.2 hrun),
      Term.fragment, padded_equal, List.flatMap_append, List.flatMap_cons, Token.lexemes]
  have hreading : ∀ x y, readPhrase (v.map Prod.snd).render = some x → readPhrase (w.map Prod.snd).render = some y →
      (readPhrase ((v.map Prod.snd).render ++ " = " ++ (w.map Prod.snd).render) =
        some (.operation Method.equality x y) ↔
          Method.equality.rank < x.rightEdge .ranks ∧ Method.equality.rank < y.leftEdge .ranks) := by
    intro x y hx hy
    rw [hread hbuilt.1 hrun.1] at hx
    rw [hread hbuilt.2 hrun.2] at hy
    rw [hcondition]
    exact readWords_equation hx hy
  refine ⟨Expr.splicedAs_of_emit hv hbuilt.1 hrun.1 haccepted hspell,
    Expr.splicedAs_of_emit hw hbuilt.2 hrun.2 haccepted hspell, rfl, hreading, fun hleft hright x y hx hy => ?_⟩
  obtain ⟨x', -, hreadx⟩ := hleft.reading_edges hv hbuilt.1 hrun.1 haccepted hspell
  obtain ⟨y', -, hready⟩ := hright.reading_edges hw hbuilt.2 hrun.2 haccepted hspell
  obtain ⟨hx', -, hedge⟩ := hreadx _ refines_ranks
  obtain ⟨hy', hedge', -⟩ := hready _ refines_ranks
  obtain rfl : x' = x := Option.some.inj (hx'.symm.trans hx)
  obtain rfl : y' = y := Option.some.inj (hy'.symm.trans hy)
  rw [hreading _ _ hx hy, hedge, hedge', left.expr.ranks_tree.1, right.expr.ranks_tree.2]

/-! ## Joins and groups -/

/-- A clause that joins a table on the equality of two keys. -/
def Join.IsWritten (sc : Scope) (run : List (Slot × String)) (j : Join) (clause : Fragment String) : Prop :=
  ∃ outer inner condition : String,
    EquatesKeys run ⟨sc, false, j.outer⟩ ⟨sc, false, j.inner⟩ outer inner condition ∧
      clause.render = j.kind.keyword ++ " " ++ quoteName j.table ++ " ON " ++ condition

/-- A select list that counts the rows in which the inner key is the outer one. -/
def Source.IsCounted (sc : Scope) (run : List (Slot × String)) (beside : Bool) (s : Source) (g : GroupJoin)
    (text : String) : Prop :=
  ∃ inner outer condition columns : String,
    EquatesKeys run ⟨s.copyScope sc, beside, g.inner⟩ ⟨sc, g.inner.isJsonText beside, g.outer⟩ inner outer condition ∧
      text = columns ++ ", " ++ ("(SELECT COUNT(*) FROM " ++ quoteName (sc.tableName s.table) ++ " AS " ++
        quoteName ("temp_" ++ sc.tableName s.table) ++ " WHERE " ++ condition ++ ")") ++ " AS " ++
        quoteName (s.typeName ++ ".__GROUP_COUNT")

theorem Join.isWritten_of_emit {sc : Scope} {run : List (Slot × String)} {spell : Slot × String → Fragment String}
    {js : List Join} {us : List (JoinOn (Slot × String))} (h : us.map (JoinOn.map Prod.fst) = js.map (Join.emit · sc))
    (hbuilt : ∀ u ∈ us, ∀ t ∈ [u.outer, u.inner], t.Built (fun _ _ _ => True) fun p => p.1.Takes Filter.Named)
    (hrun : ∀ u ∈ us, ∀ t ∈ [u.outer, u.inner], t.slots ⊆ run) (haccepted : ∀ p ∈ run, p.1.isAccepted)
    (hspell : ∀ p ∈ run, Spelled p (spell p)) :
    List.Forall₂ (Join.IsWritten sc run) js (us.map fun u => (u.map Prod.snd).fragment) := by
  induction us generalizing js with
  | nil =>
    obtain rfl := List.map_eq_nil_iff.1 h.symm
    exact .nil
  | cons u us ih =>
    obtain ⟨j, js, rfl, hj, hjs⟩ := List.map_eq_cons_iff.1 h.symm
    rw [JoinOn.map, Join.emit, JoinOn.mk.injEq] at hj
    obtain ⟨hkeyword, htable, houter, hinner⟩ := hj
    refine .cons ⟨_, _, _, equatesKeys_of_emit houter.symm hinner.symm (hbuilt u (by simp)) (hrun u (by simp))
      haccepted hspell, ?_⟩ (ih hjs.symm (fun v hv => hbuilt v (by simp [hv])) fun v hv => hrun v (by simp [hv]))
    simp [JoinOn.fragment, JoinOn.map, Token.render, Term.render, hkeyword, htable, String.append_assoc]

section Images

-- what a term is whose image is known

variable {β γ : Type} {f : β → γ} {u : Term β}

theorem Sql.Term.eq_list_of_map {ts : List (Term γ)} (h : u.map f = .list ts) :
    ∃ us, u = .list us ∧ us.map (Term.map f) = ts := by
  cases u with
  | list us => exact ⟨us, rfl, by simpa using h⟩
  | _ => simp at h

theorem Sql.Term.eq_labelled_of_map {t : Term γ} {label : String} (h : u.map f = .labelled t label) :
    ∃ v, u = .labelled v label ∧ v.map f = t := by
  cases u with
  | labelled v label' =>
    rw [Term.map_labelled, Term.labelled.injEq] at h
    obtain ⟨h, rfl⟩ := h
    exact ⟨v, rfl, h⟩
  | _ => simp at h

theorem Sql.Term.eq_groupCount_of_map {table copy : String} {i o : Term γ} (h : u.map f = .groupCount table copy i o) :
    ∃ v w, u = .groupCount table copy v w ∧ v.map f = i ∧ w.map f = o := by
  cases u with
  | groupCount table' copy' v w =>
    rw [Term.map_groupCount, Term.groupCount.injEq] at h
    obtain ⟨rfl, rfl, hv, hw⟩ := h
    exact ⟨v, w, rfl, hv, hw⟩
  | _ => simp at h

end Images

theorem Source.isCounted_of_emit {s : Source} {g : GroupJoin} {sc : Scope} {m : Mode} {beside : Bool}
    {spell : Slot × String → Fragment String} {u : Term (Slot × String)} (hg : s.groupJoin = some g)
    (hu : u.map Prod.fst = (s.emit sc m beside).term)
    (hbuilt : u.Built (fun _ _ _ => True) fun p => p.1.Takes Filter.Named) (haccepted : ∀ p ∈ u.slots, p.1.isAccepted)
    (hspell : ∀ p ∈ u.slots, Spelled p (spell p)) : s.IsCounted sc u.slots beside g (u.map Prod.snd).render := by
  rw [Source.term_emit_group hg, groupJoinTerm] at hu
  obtain ⟨us, rfl, hus⟩ := Term.eq_list_of_map hu
  obtain ⟨columns, us, rfl, -, hus⟩ := List.map_eq_cons_iff.1 hus
  obtain ⟨labelled, us, rfl, hlabelled, hus⟩ := List.map_eq_cons_iff.1 hus
  obtain rfl := List.map_eq_nil_iff.1 hus
  obtain ⟨count, rfl, hcount⟩ := Term.eq_labelled_of_map hlabelled
  obtain ⟨v, w, rfl, hinner, houter⟩ := Term.eq_groupCount_of_map hcount
  have hkeys : v.Built (fun _ _ _ => True) (fun p => p.1.Takes Filter.Named) ∧
      w.Built (fun _ _ _ => True) fun p => p.1.Takes Filter.Named := by
    cases hbuilt with
    | list hitems =>
    cases hitems _ (List.mem_cons_of_mem _ (List.mem_singleton_self _)) with
    | labelled _ hcount =>
    cases hcount with
    | groupCount _ _ hv hw => exact ⟨hv, hw⟩
  refine ⟨_, _, _, (columns.map Prod.snd).render,
    equatesKeys_of_emit hinner houter (by simpa using hkeys) (by simp [Term.slots, termSlots]) haccepted hspell, ?_⟩
  simp [Term.render, Term.fragment, termFragments, Fragment.separated, Token.render, String.append_assoc,
    -String.reduceAppend]

/-- **The condition of a join compares its keys.** For every query and wherever it
stands: each clause that joins a table holds the equality of the keys' texts, and so
does the statement that counts the rows of a group. -/
theorem keys_equated {r : Registry} (hstem : IsIdentifier r.stem) (sc : Scope) :
    (∀ (q : Query) (frame : Frame String) (r' : Registry), (∀ n ∈ q.filterNames, IsIdentifier n) →
      (settleSelect (q.emit sc)).runOn r = (.ok frame, r') →
      ∃ run, Visits Slot.settle r run r' ∧ List.Forall₂ (Join.IsWritten (q.scope sc) run) q.joins frame.joins) ∧
    ∀ (s : Source) (g : GroupJoin) (m : Mode) (beside : Bool) (text : String) (r' : Registry),
      s.groupJoin = some g → (∀ n ∈ (Expr.source s).filterNames, IsIdentifier n) →
      (settleTerm (s.emit sc m beside).term).runOn r = (.ok text, r') →
      ∃ run, Visits Slot.settle r run r' ∧ s.IsCounted sc run beside g text := by
  constructor
  · intro q frame r' hnames hrun
    obtain ⟨u, hu, hv, rfl⟩ := settleSelect_eq_ok hrun
    have hbuilt : (Term.subquery u).Built (fun _ _ _ => True) fun p => p.1.Takes Filter.Named :=
      Query.built_of_filters (fun hp _ hf n hn => hnames n (mem_filterNames hp hf hn)) hu
    choose! spell hspell using hv.spelled hstem (fun _ _ _ => id) fun p hp => hbuilt.of_mem_slots hp
    rw [Select.map_eq, Query.emit_eq, Select.mk.injEq] at hu
    obtain ⟨-, -, -, -, hjoins, -⟩ := hu
    cases hbuilt with
    | subquery _ houter hinner =>
    rw [Select.frame_eq, Select.map_eq, List.map_map]
    exact ⟨_, hv, Join.isWritten_of_emit hjoins (fun j hj => by simpa using ⟨houter j hj, hinner j hj⟩)
      (fun j hj => by simpa using u.all_slots.joins j hj) hv.accepted fun p hp => (hspell p hp).1⟩
  · intro s g m beside text r' hg hnames hrun
    obtain ⟨u, hu, hv, rfl⟩ := settleTerm_eq_ok hrun
    have hbuilt : u.Built (fun _ _ _ => True) fun p => p.1.Takes Filter.Named :=
      Expr.built_of_names (e := .source s) hnames hu
    choose! spell hspell using hv.spelled hstem (fun _ _ _ => id) fun p hp => hbuilt.of_mem_slots hp
    exact ⟨_, hv, Source.isCounted_of_emit hg hu hbuilt hv.accepted fun p hp => (hspell p hp).1⟩

/-- The rows of a join with a given outer key, counted. -/
def countedJoin (outer : Expr) : Query :=
  { source := ⟨"T", [], none, none⟩, selector := none, joins := [⟨.inner, "u", outer, .member none ["c"] .integer⟩],
    conditions := [], filters := [], groupBy := [], orderBy := [], limit := none, offset := none, distinct := false,
    count := true }

/-- A sum as a key. -/
def summedKey : Expr := .binary .add (.member none ["a"] .integer) (.member none ["b"] .integer)

/-- The rows of each group, the inner key a sum. -/
def countedGroup : Source := ⟨"T", [], none, some ⟨.member none ["c"] .integer, summedKey⟩⟩

/-- A column as it is read. -/
def columnOf (table name : String) : ReadTree := .leaf [.quoted '"' table, .plain ".", .quoted '"' name]

/-- A sum stays whole in front of an equality. -/
theorem summedKey_equated :
    (∃ frame r', (settleSelect ((countedJoin summedKey).emit (.ofSettings plainTable {} none))).runOn (.ofSettings {}) =
        (.ok frame, r') ∧
      frame.joins.map Fragment.render = ["INNER JOIN \"u\" ON \"t\".\"a\" + \"t\".\"b\" = \"t\".\"c\""] ∧
      readPhrase "\"t\".\"a\" + \"t\".\"b\" = \"t\".\"c\"" = some (.operation Method.equality
        (.operation Method.addition (columnOf "t" "a") (columnOf "t" "b")) (columnOf "t" "c"))) ∧
    ∃ text r', (settleTerm (countedGroup.emit (.ofSettings plainTable {} none) {} false).term).runOn (.ofSettings {}) =
        (.ok text, r') ∧
      text = ", (SELECT COUNT(*) FROM \"t\" AS \"temp_t\" WHERE \"temp_t\".\"a\" + \"temp_t\".\"b\" = \"t\".\"c\")" ++
        " AS \"T.__GROUP_COUNT\"" ∧
      readPhrase "\"temp_t\".\"a\" + \"temp_t\".\"b\" = \"t\".\"c\"" = some (.operation Method.equality
        (.operation Method.addition (columnOf "temp_t" "a") (columnOf "temp_t" "b")) (columnOf "t" "c")) := by
  obtain ⟨hjoins, hgroups⟩ := keys_equated (r := .ofSettings {}) (by decide) (.ofSettings plainTable {} none)
  constructor
  · refine ⟨_, _, rfl, by decide +kernel, ?_⟩
    obtain ⟨run, -, hclauses⟩ := hjoins (countedJoin summedKey) _ _ (by decide) rfl
    obtain ⟨outer, inner, condition, hkeys, -⟩ := (List.forall₂_cons.1 hclauses).1
    have houter : outer = "\"t\".\"a\" + \"t\".\"b\"" := hkeys.before.written.eq_render rfl
    have hinner : inner = "\"t\".\"c\"" := hkeys.behind.written.eq_render rfl
    obtain rfl := hkeys.written
    subst houter hinner
    exact (hkeys.reading _ _ rfl rfl).2 (by decide)
  · refine ⟨_, _, rfl, by decide +kernel, ?_⟩
    obtain ⟨run, -, inner, outer, condition, columns, hkeys, -⟩ :=
      hgroups countedGroup _ {} false _ _ rfl (by decide) rfl
    have hinner : inner = "\"temp_t\".\"a\" + \"temp_t\".\"b\"" := hkeys.before.written.eq_render rfl
    have houter : outer = "\"t\".\"c\"" := hkeys.behind.written.eq_render rfl
    obtain rfl := hkeys.written
    subst houter hinner
    exact (hkeys.reading _ _ rfl rfl).2 (by decide)

/-- A disjunction as a key. -/
def eitherKey : Expr := .binary .orElse (.member none ["a"] .boolean) (.member none ["b"] .boolean)

/-- Only the second half of a disjunction is compared. -/
theorem eitherKey_regrouped :
    ((countedJoin eitherKey).compile plainTable {}).toOption.map (·.text) =
        some ("SELECT COUNT(*) FROM \"t\" INNER JOIN \"u\" ON " ++ "\"t\".\"a\" OR \"t\".\"b\" = \"t\".\"c\"") ∧
      readPhrase "\"t\".\"a\" OR \"t\".\"b\"" =
        some (.operation (.binary (.operator .orElse)) (columnOf "t" "a") (columnOf "t" "b")) ∧
      readPhrase "\"t\".\"a\" OR \"t\".\"b\" = \"t\".\"c\"" =
        some (.operation (.binary (.operator .orElse)) (columnOf "t" "a")
          (.operation Method.equality (columnOf "t" "b") (columnOf "t" "c"))) := by
  exact ⟨by decide +kernel, rfl, rfl⟩

end ParamQuery
