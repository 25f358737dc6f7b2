/-
The stack of open statements. A compilation inside a session opens a statement
for every query that it meets in an expression, and closes it again. `Mirrors`:
such a compilation settles the same slots as one on the registry alone, gives
the same text, and leaves the stack as it was, wherever it is refused
(`Sql.Term.walk_mirrors`).

`Session.stack_survives` is about whole sessions: an expression leaves the
stack alone, a query replaces the innermost statement or nothing, and a
statement that is opened, used and closed leaves no trace on the stack.
-/
import ParamQuery.Compile.Session
import ParamQuery.Proofs.NamingFacts

namespace ParamQuery

open Sql

variable {α δ τ υ : Type}

/-! ## Texts in place of tokens -/

namespace Sql

namespace Fragment

/-- A text as it stands. -/
def ofText (s : String) : Fragment String := [.slot s]

@[simp] theorem render_ofText (s : String) : render (ofText s) = s := by simp [ofText, Token.render]

/-- The fragments with the tokens of each put together. -/
def texts (fs : List (Fragment String)) : List (Fragment String) := (fs.map render).map ofText

theorem texts_cons (f : Fragment String) (fs : List (Fragment String)) :
    texts (f :: fs) = ofText (render f) :: texts fs := rfl

theorem render_separated (separator : String) (fs : List (Fragment String)) :
    render (separated separator fs) = render (separated separator (texts fs)) := by
  induction fs with
  | nil => rfl
  | cons f fs ih =>
    cases fs with
    | nil => simp [texts, separated]
    | cons g fs =>
      have hcons (F G : Fragment String) (rest : List (Fragment String)) :
          separated separator (F :: G :: rest) = F ++ Token.text separator :: separated separator (G :: rest) := rfl
      rw [texts_cons] at ih
      simp only [texts_cons, hcons, render_append, render_cons, ih, render_ofText]

theorem texts_parenthesized (fs : List (Fragment String)) :
    texts (fs.map parenthesized) = texts ((texts fs).map parenthesized) := by
  simp [texts, parenthesized, Function.comp_def]

theorem render_parenthesized_all (separator : String) (fs : List (Fragment String)) :
    render (separated separator (fs.map parenthesized)) =
      render (separated separator ((texts fs).map parenthesized)) := by
  rw [render_separated, texts_parenthesized, ← render_separated]

theorem render_flatMap (f : α → Fragment String) (l : List α) :
    render (l.flatMap f) = render (texts (l.map f)).flatten := by
  induction l with
  | nil => rfl
  | cons a l ih =>
    rw [List.flatMap_cons, render_append, ih, List.map_cons, texts_cons, List.flatten_cons, render_append,
      render_ofText]

end Fragment

open Fragment

theorem render_guardFragment (fs : List (Fragment String)) :
    render (guardFragment fs) = render (guardFragment (texts fs)) := by
  match fs with
  | [] => rfl
  | [f] => simp [texts, guardFragment]
  | f :: g :: fs => exact render_parenthesized_all " AND " (f :: g :: fs)

theorem render_expand (t : Template) (fs : List (Fragment String)) :
    render (t.expand (fun cs => [.text (String.ofList cs)]) fs) =
      render (t.expand (fun cs => [.text (String.ofList cs)]) (texts fs)) := by
  rw [Template.expand, Template.expand]
  induction t.parts with
  | nil => rfl
  | cons p parts ih =>
    rw [List.flatMap_cons, List.flatMap_cons, render_append, render_append, ih]
    congr 1
    cases p with
    | text cs => rfl
    | slot i =>
      cases i with
      | none => rfl
      | some i =>
        simp only [texts, List.getD_eq_getElem?_getD, List.getElem?_map]
        cases fs[i]? <;> simp

namespace Frame

/-- The frame with the tokens of each clause put together. -/
def settled (f : Frame String) : Frame String :=
  { f with
    select := ofText f.select.render
    source := ofText f.source.render
    joins := texts f.joins
    conditions := texts f.conditions
    groupBy := texts f.groupBy
    orderBy := texts f.orderBy }

theorem render_whereClause (fs : List (Fragment String)) :
    Fragment.render (whereClause fs) = Fragment.render (whereClause (texts fs)) := by
  match fs with
  | [] => rfl
  | [f] => simp [texts, whereClause]
  | f :: g :: fs =>
    simp only [whereClause, texts_cons, render_cons]
    rw [render_parenthesized_all]
    rfl

theorem render_listClause (keyword : String) (fs : List (Fragment String)) :
    Fragment.render (listClause keyword fs) = Fragment.render (listClause keyword (texts fs)) := by
  cases fs with
  | nil => rfl
  | cons f fs =>
    simp only [listClause, List.isEmpty_cons, Bool.false_eq_true, if_false, texts_cons, render_cons]
    rw [render_separated]
    rfl

/-- The text of a statement is made of the texts of its clauses. -/
theorem render_settled (f : Frame String) : f.settled.render = f.render := by
  have hjoins : Fragment.render ((texts f.joins).flatMap (.text " " :: ·)) =
      Fragment.render (f.joins.flatMap (.text " " :: ·)) := by
    simp [render_flatMap, texts, Function.comp_def]
  simp only [Frame.render, Frame.statement, settled, render_append, render_cons, render_ofText, hjoins,
    ← render_whereClause, ← render_listClause]
  rfl

end Frame

end Sql

/-! ## Steps of a session -/

/-- The second step runs on the session that the first one leaves. -/
theorem Assembly.runOn_bind (x : Assembly α) (k : α → Assembly δ) (s : Session) :
    (x >>= k).runOn s = match x.runOn s with
      | (.ok a, s) => (k a).runOn s
      | (.error e, s) => (.error e, s) := by
  simp only [Assembly.runOn, ExceptT.run, StateT.run, bind, ExceptT.bind, ExceptT.mk, StateT.bind,
    ExceptT.bindCont]
  rcases x s with ⟨_ | _, _⟩ <;> rfl

/-- On every session the first step does what the second one does on the
registry, up to what `text` tells apart, and leaves the stack alone. -/
def Mirrors (text : α → τ) (x : Assembly α) (y : Naming α) : Prop :=
  ∀ s : Session, (x.runOn s).1.map text = (y.runOn s.registry).1.map text ∧
    (x.runOn s).2 = { s with registry := (y.runOn s.registry).2 }

theorem Mirrors.pure {text : α → τ} {a b : α} (h : text a = text b) :
    Mirrors text (pure a : Assembly α) (Pure.pure b) :=
  fun _ => ⟨congrArg Except.ok h, rfl⟩

theorem Mirrors.settle (b : Slot) : Mirrors id (Assembly.settle b) b.settle := fun _ => ⟨rfl, rfl⟩

theorem Mirrors.bind {text : α → τ} {text' : δ → υ} {x : Assembly α} {y : Naming α} {k : α → Assembly δ}
    {l : α → Naming δ} (h : Mirrors text x y) (hk : ∀ a b, text a = text b → Mirrors text' (k a) (l b)) :
    Mirrors text' (x >>= k) (y >>= l) := by
  intro s
  obtain ⟨hresult, hafter⟩ := h s
  rw [Assembly.runOn_bind, Naming.runOn_bind]
  rcases hx : x.runOn s with ⟨e | a, s₁⟩ <;> rcases hy : y.runOn s.registry with ⟨e' | b, r₁⟩ <;>
    simp only [hx, hy, Except.map, reduceCtorEq, Except.error.injEq, Except.ok.injEq] at hresult hafter
  · exact ⟨by rw [hresult], hafter⟩
  · subst hafter
    exact hk a b hresult { s with registry := r₁ }

theorem Mirrors.map {text : α → τ} {text' : δ → υ} {x : Assembly α} {y : Naming α} {g g' : α → δ}
    (h : Mirrors text x y) (hg : ∀ a b, text a = text b → text' (g a) = text' (g' b)) :
    Mirrors text' (x >>= fun a => Pure.pure (g a)) (y >>= fun b => Pure.pure (g' b)) :=
  h.bind fun a b hab => .pure (hg a b hab)

/-- Where the result is a text, the step is the one on the registry. -/
theorem Mirrors.runOn_eq {x : Assembly String} {y : Naming String} (h : Mirrors id x y) (s : Session) :
    x.runOn s = s.run y := by
  obtain ⟨hresult, hafter⟩ := h s
  have hid (o : Except CompileError String) : o.map id = o := by cases o <;> rfl
  rw [hid, hid] at hresult
  exact Prod.ext hresult hafter

/-! ## Closing statements -/

namespace Sql.FrameStack

theorem closeWhile_of_length_lt {depth : Nat} {s : FrameStack} (h : s.length < depth)
    (last : Option (Frame String)) : closeWhile depth last s = (last, s) := by
  cases s with
  | nil => rfl
  | cons f below =>
    rw [List.length_cons] at h
    rw [closeWhile, if_neg (by omega)]

/-- Closing from a depth on leaves the statements below it, whatever is open
above. -/
theorem closeWhile_append (above below : FrameStack) (f : Frame String) (last : Option (Frame String)) :
    closeWhile (below.length + 1) last (above ++ f :: below) = (some f, below) := by
  induction above generalizing last with
  | nil =>
    rw [List.nil_append, closeWhile, if_pos (Nat.le_refl _)]
    exact closeWhile_of_length_lt (Nat.lt_succ_self _) _
  | cons g above ih =>
    rw [List.cons_append, closeWhile, if_pos (by simp; omega)]
    exact ih _

end Sql.FrameStack

namespace Session

theorem finishStatement_append {s : Session} (above : FrameStack) {below : FrameStack} {f : Frame String}
    (h : s.frames = above ++ f :: below) :
    s.finishStatement (below.length + 1) = (f.render, { s with frames := below }) := by
  simp [finishStatement, FrameStack.closeFrom, h, FrameStack.closeWhile_append]

theorem dropStatement_append {s : Session} (above : FrameStack) {below : FrameStack} {f : Frame String}
    (h : s.frames = above ++ f :: below) :
    s.dropStatement (below.length + 1) = { s with frames := below } := by
  rw [dropStatement, finishStatement_append above h]

end Session

/-! ## Statements inside expressions -/

/-- What writing a statement does: it replaces the innermost open one, if there
is one and the statement is not refused. -/
theorem Assembly.write_runOn {x : Assembly (Select String)} {y : Naming (Select String)}
    (h : Mirrors (fun q => q.frame.settled) x y) (s : Session) :
    match y.runOn s.registry, s.frames with
    | (.ok q, r), _ :: below =>
      ∃ frame, (write x).runOn s = (.ok (), { s with registry := r, frames := frame :: below }) ∧
        frame.settled = q.frame.settled
    | (.ok _, r), [] => (write x).runOn s = (.error .noOpenStatement, { s with registry := r })
    | (.error e, r), _ => (write x).runOn s = (.error e, { s with registry := r }) := by
  obtain ⟨hresult, hafter⟩ := h s
  rw [write, Assembly.runOn_bind]
  rcases hx : x.runOn s with ⟨e | p, s₁⟩ <;> rcases hy : y.runOn s.registry with ⟨e' | q, r₁⟩ <;>
    simp only [hx, hy, Except.map, reduceCtorEq, Except.error.injEq, Except.ok.injEq] at hresult hafter ⊢
  · rw [hresult, hafter]
  · subst hafter
    cases hs : s.frames with
    | nil => simp [overwrite, Assembly.runOn, ExceptT.run, ExceptT.mk, StateT.run, FrameStack.replace?]
    | cons top below =>
      refine ⟨p.frame, ?_, hresult⟩
      simp [overwrite, Assembly.runOn, ExceptT.run, ExceptT.mk, StateT.run, FrameStack.replace?]

theorem Assembly.enclosed_runOn (x : Assembly (Select String)) (s : Session) :
    (enclosed x).runOn s = match (write x).runOn { s with frames := {} :: s.frames } with
      | (.error e, s') => (.error e, s'.dropStatement (s.frames.length + 1))
      | (.ok _, s') =>
        (.ok (.slot ("(" ++ (s'.finishStatement (s.frames.length + 1)).1 ++ ")")),
          (s'.finishStatement (s.frames.length + 1)).2) := by
  show (match (write x).runOn { s with frames := {} :: s.frames } with
    | (.error e, s') => _
    | (.ok _, s') => _) = _
  rcases (write x).runOn { s with frames := {} :: s.frames } with ⟨e | _, s'⟩ <;> rfl

/-- A statement inside an expression is opened and closed again, whether it is
written or refused. -/
theorem Mirrors.enclosed {x : Assembly (Select String)} {y : Naming (Select String)}
    (h : Mirrors (fun q => q.frame.settled) x y) :
    Mirrors Term.render (Assembly.enclosed x) (asSubquery y) := by
  intro s
  have hwrite := Assembly.write_runOn h { s with frames := {} :: s.frames }
  rw [Assembly.enclosed_runOn, asSubquery, Naming.runOn_bind]
  rcases hy : y.runOn s.registry with ⟨e | q, r⟩ <;> simp only [hy] at hwrite ⊢
  · rw [hwrite]
    exact ⟨rfl, Session.dropStatement_append [] rfl⟩
  · obtain ⟨frame, hrun, hframe⟩ := hwrite
    rw [hrun]
    have hfinish := Session.finishStatement_append (s := { s with registry := r, frames := frame :: s.frames }) [] rfl
    simp only [hfinish]
    refine ⟨congrArg Except.ok ?_, rfl⟩
    rw [← Frame.render_settled, hframe, Frame.render_settled]
    simp [Term.render, Term.fragment, Fragment.parenthesized, Frame.render, Token.render, String.append_assoc]

/-! ## Walks over terms -/

/-- The walk over a term inside a session mirrors the one on the registry. -/
abbrev Walked (t : Term Slot) : Prop :=
  Mirrors (fun t : Term String => t.fragment.render) (t.walk Assembly.settle Assembly.enclosed)
    (t.mapM Slot.settle)

theorem walkTerms_mirrors {ts : List (Term Slot)} (h : ∀ t ∈ ts, Walked t) :
    Mirrors (fun ts : List (Term String) => Fragment.texts (ts.map Term.fragment))
      (walkTerms Assembly.settle Assembly.enclosed ts) (mapTerms Slot.settle ts) := by
  induction ts with
  | nil => exact .pure rfl
  | cons t ts ih =>
    refine (h t (by simp)).bind fun t₁ t₂ ht => (ih fun t ht => h t (by simp [ht])).map fun ts₁ ts₂ hts => ?_
    simp only [List.map_cons, Fragment.texts_cons, ht, hts]

theorem walkArms_mirrors {arms : List (Arm Slot)}
    (h : ∀ a ∈ arms, (∀ t ∈ a.guards, Walked t) ∧ Walked a.value) :
    Mirrors (fun arms : List (Arm String) => Fragment.texts (arms.map Arm.fragment))
      (walkArms Assembly.settle Assembly.enclosed arms) (mapArms Slot.settle arms) := by
  induction arms with
  | nil => exact .pure rfl
  | cons a arms ih =>
    obtain ⟨guards, value⟩ := a
    obtain ⟨hg, hv⟩ := h ⟨guards, value⟩ (by simp)
    refine (walkTerms_mirrors hg).bind fun g₁ g₂ hg => hv.bind fun v₁ v₂ hv =>
      (ih fun a ha => h a (by simp [ha])).map fun a₁ a₂ ha => ?_
    have hguards : (guardFragment (g₁.map Term.fragment)).render = (guardFragment (g₂.map Term.fragment)).render := by
      rw [render_guardFragment, hg, ← render_guardFragment]
    simp only [List.map_cons, Fragment.texts_cons, Arm.fragment, Fragment.render_append, Fragment.render_cons,
      hguards, hv, ha]

theorem walkJoins_mirrors {js : List (JoinOn Slot)} (h : ∀ j ∈ js, Walked j.outer ∧ Walked j.inner) :
    Mirrors (fun js : List (JoinOn String) => Fragment.texts (js.map JoinOn.fragment))
      (walkJoins Assembly.settle Assembly.enclosed js) (mapJoins Slot.settle js) := by
  induction js with
  | nil => exact .pure rfl
  | cons j js ih =>
    obtain ⟨keyword, table, outer, inner⟩ := j
    obtain ⟨ho, hi⟩ := h ⟨keyword, table, outer, inner⟩ (by simp)
    refine ho.bind fun o₁ o₂ ho => hi.bind fun i₁ i₂ hi =>
      (ih fun j hj => h j (by simp [hj])).map fun js₁ js₂ hjs => ?_
    simp only [List.map_cons, Fragment.texts_cons, JoinOn.fragment, Fragment.render_append, Fragment.render_cons,
      ho, hi, hjs]

theorem walkSortTerms_mirrors {ks : List (SortTerm Slot)} (h : ∀ k ∈ ks, Walked k.key) :
    Mirrors (fun ks : List (SortTerm String) => Fragment.texts (ks.map SortTerm.fragment))
      (walkSortTerms Assembly.settle Assembly.enclosed ks) (mapSortTerms Slot.settle ks) := by
  induction ks with
  | nil => exact .pure rfl
  | cons k ks ih =>
    obtain ⟨key, keyword⟩ := k
    refine (h ⟨key, keyword⟩ (by simp)).bind fun k₁ k₂ hk =>
      (ih fun k hk => h k (by simp [hk])).map fun ks₁ ks₂ hks => ?_
    simp only [List.map_cons, Fragment.texts_cons, SortTerm.fragment, Fragment.render_append, hk, hks]

theorem Sql.Select.walk_mirrors_of {q : Select Slot} (h : q.All Walked) :
    Mirrors (fun q => q.frame.settled) (q.walk Assembly.settle Assembly.enclosed) (q.mapM Slot.settle) := by
  obtain ⟨distinct, items, schema, table, joins, conditions, groupBy, orderBy, limit, offset⟩ := q
  refine h.items.bind fun i₁ i₂ hi => (walkJoins_mirrors h.joins).bind fun js₁ js₂ hjs =>
    (walkTerms_mirrors h.conditions).bind fun cs₁ cs₂ hcs => (walkTerms_mirrors h.groupBy).bind fun gs₁ gs₂ hgs =>
    (walkSortTerms_mirrors h.orderBy).map fun ks₁ ks₂ hks => ?_
  simp only [Select.frame_eq, Select.sourceFragment, Frame.settled, hi, hjs, hcs, hgs, hks]

/-- **A walk leaves the stack alone.** Inside a session a term gets the text
that it gets on the registry of the session, or is refused for the same
reason. -/
theorem Sql.Term.walk_mirrors (t : Term Slot) : Walked t := by
  induction t using Term.induction with
  | slot b => exact (Mirrors.settle b).map fun a b hab => congrArg (fun a => Term.render (.slot a)) hab
  | table name => exact .pure rfl
  | allColumns table => exact .pure rfl
  | column qualifier name steps ih => exact ih.map fun a b hab => by simp [Term.fragment, hab]
  | countAll => exact .pure rfl
  | labelled t label ih => exact ih.map fun a b hab => by simp [Term.fragment, hab]
  | list items ih =>
    refine (walkTerms_mirrors ih).map fun a b hab => ?_
    simp only [Term.fragment, termFragments_eq_map]
    rw [Fragment.render_separated, hab, ← Fragment.render_separated]
  | operation left op right ihl ihr =>
    exact ihl.bind fun l₁ l₂ hl => ihr.map fun r₁ r₂ hr => by simp [Term.fragment, hl, hr]
  | nullTest t negated ih => exact ih.map fun a b hab => by simp [Term.fragment, hab]
  | negation t ih => exact ih.map fun a b hab => by simp [Term.fragment, hab]
  | paren t ih => exact ih.map fun a b hab => by simp [Term.fragment, Fragment.parenthesized, hab]
  | lengthOf t ih => exact ih.map fun a b hab => by simp [Term.fragment, hab]
  | call template arguments ih =>
    refine (walkTerms_mirrors ih).map fun a b hab => ?_
    simp only [Term.fragment, termFragments_eq_map]
    rw [render_expand, hab, ← render_expand]
  | caseWhen arms otherwise iha iho =>
    refine (walkArms_mirrors iha).bind fun a₁ a₂ ha => iho.map fun o₁ o₂ ho => ?_
    have harms : Fragment.render (a₁.flatMap Arm.fragment) = Fragment.render (a₂.flatMap Arm.fragment) := by
      rw [Fragment.render_flatMap, ha, ← Fragment.render_flatMap]
    simp [Term.fragment, armFragments_eq_flatMap, harms, ho]
  | groupCount table copy inner outer ihi iho =>
    exact ihi.bind fun i₁ i₂ hi => iho.map fun o₁ o₂ ho => by simp [Term.fragment, hi, ho]
  | subquery q ih => exact (Select.walk_mirrors_of ih).enclosed

/-! ## Sessions -/

namespace Session

/-- The frame that a query settles to on the registry of the session, and the
registry after that. -/
def settledQuery (s : Session) (q : Query) : Except CompileError (Frame String) × Registry :=
  (settleSelect (q.emit (.ofSettings s.table s.settings none))).runOn s.registry

/-- An expression is compiled on the registry; the stack takes no part. -/
theorem expression_eq (s : Session) (qualifier : Option String) (e : Expr) :
    s.expression qualifier e =
      s.run (settleTerm (e.emit (.ofSettings s.table s.settings qualifier) {} false).term) :=
  Mirrors.runOn_eq ((Term.walk_mirrors _).map fun _ _ hab => hab) s

/-- A query is settled on the registry and then replaces the innermost open
statement, if there is one. -/
theorem query_cases (s : Session) (q : Query) :
    match s.settledQuery q, s.frames with
    | (.ok f, r), _ :: below =>
      ∃ frame, s.query q = (.ok (), { s with registry := r, frames := frame :: below }) ∧ frame.render = f.render
    | (.ok _, r), [] => s.query q = (.error .noOpenStatement, { s with registry := r })
    | (.error e, r), _ => s.query q = (.error e, { s with registry := r }) := by
  have h := Assembly.write_runOn
    (Select.walk_mirrors_of (.intro Term.walk_mirrors (q.emit (.ofSettings s.table s.settings none)))) s
  rw [settledQuery, settleSelect, Naming.runOn_bind]
  rcases hrun : ((q.emit (.ofSettings s.table s.settings none)).mapM Slot.settle).runOn s.registry with ⟨e | p, r⟩ <;>
    simp only [hrun, Naming.runOn_pure] at h ⊢
  · exact h
  · cases hs : s.frames with
    | nil =>
      simp only [hs] at h ⊢
      exact h
    | cons top below =>
      simp only [hs] at h ⊢
      obtain ⟨frame, hquery, hframe⟩ := h
      exact ⟨frame, hquery, by rw [← Frame.render_settled, hframe, Frame.render_settled]⟩

end Session

/-- **A whole query is one statement of a session**: opened, written and
finished. -/
theorem Query.compile_eq_session (q : Query) (table : Table) (settings : Settings) :
    q.compile table settings =
      match (Session.start table settings).openStatement.2.query q with
      | (.ok _, s) => .ok ⟨(s.finishStatement 1).1, s.registry.parameters⟩
      | (.error e, _) => .error e := by
  have hcases := (Session.start table settings).openStatement.2.query_cases q
  have hframes : (Session.start table settings).openStatement.2.frames = [{}] := rfl
  have hsettled : (Session.start table settings).openStatement.2.settledQuery q =
      (settleSelect (q.emit (.ofSettings table settings none))).runOn (.ofSettings settings) := rfl
  rw [hsettled, hframes] at hcases
  rw [Query.compile, Naming.toCommand, Naming.runOn_bind]
  rcases hq : (settleSelect (q.emit (.ofSettings table settings none))).runOn (.ofSettings settings) with ⟨e | f, r⟩ <;>
    simp only [hq] at hcases ⊢
  · rw [hcases]
  · obtain ⟨frame, hquery, hframe⟩ := hcases
    have hfinish := Session.finishStatement_append
      (s := { Session.start table settings with registry := r, frames := [frame] }) [] rfl
    rw [hquery, ← hframe]
    exact congrArg (fun text => Except.ok (Command.mk text r.parameters)) (congrArg Prod.fst hfinish).symm

/-- What can be done with a session. A statement is opened, used and closed,
by finishing or by dropping it. -/
inductive Step where
  | expression (qualifier : Option String) (e : Expr)
  | query (q : Query)
  | bind (b : Binding)
  | absorb (c : Command)
  | statement (steps : List Step)

namespace Session

mutual
/-- The session after a step, whether the step succeeds or is refused. -/
def perform (s : Session) : Step → Session
  | .expression qualifier e => (s.expression qualifier e).2
  | .query q => (s.query q).2
  | .bind b => (s.bind b).2
  | .absorb c => (s.absorb c).2
  | .statement steps => (performAll s.openStatement.2 steps).dropStatement s.openStatement.1
/-- The steps one after another. -/
def performAll (s : Session) : List Step → Session
  | [] => s
  | step :: rest => performAll (s.perform step) rest
end

/-- The frame last written in the innermost statement by steps that start with
it as `last`. -/
def lastWritten (s : Session) (last : Frame String) : List Step → Frame String
  | [] => last
  | step :: rest =>
    let last := match step with
      | .query q => (s.settledQuery q).1.toOption.getD last
      | _ => last
    lastWritten (s.perform step) last rest

/-- The innermost statement is one with the text of `f`, inside of `below`. -/
def Innermost (s : Session) (f : Frame String) (below : FrameStack) : Prop :=
  ∃ top, s.frames = top :: below ∧ top.render = f.render

/-- A statement that is used and closed leaves the stack as it was before it
was opened. -/
theorem frames_statement {s : Session} {steps : List Step} {f : Frame String}
    (h : (s.openStatement.2.performAll steps).Innermost f s.frames) :
    ((s.openStatement.2.performAll steps).finishStatement s.openStatement.1).1 = f.render ∧
      (s.perform (.statement steps)).frames = s.frames := by
  obtain ⟨top, hframes, htop⟩ := h
  have hdepth : s.openStatement.1 = s.frames.length + 1 := rfl
  have hfinish := finishStatement_append [] hframes
  rw [perform, hdepth, dropStatement, hfinish]
  exact ⟨htop, rfl⟩

theorem frames_expression (s : Session) (qualifier : Option String) (e : Expr) :
    (s.expression qualifier e).2.frames = s.frames := by
  rw [expression_eq]
  rfl

theorem Innermost.query {s : Session} {f : Frame String} {below : FrameStack} (h : s.Innermost f below) (q : Query) :
    (s.query q).2.Innermost ((s.settledQuery q).1.toOption.getD f) below := by
  obtain ⟨top, hframes, htop⟩ := h
  have hcases := s.query_cases q
  rcases hq : s.settledQuery q with ⟨e | g, r⟩ <;> simp only [hq, hframes] at hcases
  · rw [hcases]
    exact ⟨top, rfl, htop⟩
  · obtain ⟨frame, hquery, hframe⟩ := hcases
    rw [hquery]
    exact ⟨frame, rfl, hframe⟩

theorem innermost_opened (s : Session) : s.openStatement.2.Innermost {} s.frames := ⟨{}, rfl, rfl⟩

mutual
/-- One step keeps the statements around the innermost one. -/
theorem Innermost.perform {s : Session} {f : Frame String} {below : FrameStack} (h : s.Innermost f below) :
    ∀ step, (s.perform step).Innermost (match step with
      | .query q => (s.settledQuery q).1.toOption.getD f
      | _ => f) below
  | .expression qualifier e => by
    obtain ⟨top, hframes, htop⟩ := h
    exact ⟨top, by rw [Session.perform, frames_expression, hframes], htop⟩
  | .query q => h.query q
  | .bind b => h
  | .absorb c => h
  | .statement steps => by
    obtain ⟨top, hframes, htop⟩ := h
    exact ⟨top, by rw [(frames_statement (s.innermost_opened.performAll steps)).2, hframes], htop⟩
/-- A run of steps keeps the statements around the innermost one, which holds
what was written last. -/
theorem Innermost.performAll {s : Session} {f : Frame String} {below : FrameStack} (h : s.Innermost f below) :
    ∀ steps, (s.performAll steps).Innermost (s.lastWritten f steps) below
  | [] => h
  | step :: rest => (h.perform step).performAll rest
end

/-- **The stack survives every outcome.** -/
theorem stack_survives (s : Session) :
    (∀ qualifier e, (s.expression qualifier e).2.frames = s.frames) ∧
    (∀ q, (∃ top below frame f, s.frames = top :: below ∧ (s.query q).1 = .ok () ∧
        (s.query q).2.frames = frame :: below ∧ (s.settledQuery q).1 = .ok f ∧ frame.render = f.render) ∨
      ∃ e, (s.query q).1 = .error e ∧ (s.query q).2.frames = s.frames ∧
        ((s.settledQuery q).1 = .error e ∨ s.frames = [] ∧ e = .noOpenStatement)) ∧
    ∀ steps, (let used := s.openStatement.2.performAll steps
      (used.finishStatement s.openStatement.1).1 = (s.openStatement.2.lastWritten {} steps).render ∧
        (used.finishStatement s.openStatement.1).2.frames = s.frames ∧
        (used.dropStatement s.openStatement.1).frames = s.frames) := by
  refine ⟨s.frames_expression, fun q => ?_, fun steps => ?_⟩
  · have hcases := s.query_cases q
    rcases hq : s.settledQuery q with ⟨e | f, r⟩ <;> rcases hs : s.frames with _ | ⟨top, below⟩ <;>
      simp only [hq, hs] at hcases
    · exact .inr ⟨e, by rw [hcases], by rw [hcases], .inl rfl⟩
    · exact .inr ⟨e, by rw [hcases], by rw [hcases], .inl rfl⟩
    · exact .inr ⟨.noOpenStatement, by rw [hcases], by rw [hcases], .inr ⟨rfl, rfl⟩⟩
    · obtain ⟨frame, hquery, hframe⟩ := hcases
      exact .inl ⟨top, below, frame, f, rfl, by rw [hquery], by rw [hquery], rfl, hframe⟩
  · obtain ⟨htext, hframes⟩ := frames_statement (s.innermost_opened.performAll steps)
    exact ⟨htext, hframes, hframes⟩

end Session

end ParamQuery
