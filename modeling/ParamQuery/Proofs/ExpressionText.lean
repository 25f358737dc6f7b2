/-
The texts of expressions as operator trees: members with the way into their
documents, calls, and conditionals as one `CASE`. With the operations these are
all (`Expr.Plain.shaped`): emission writes the tree of an expression.
-/
import ParamQuery.Proofs.ExpressionTrees

namespace ParamQuery

open Sql

/-! ## Members -/

section Members

variable {α β : Type} {key : String → α}

theorem shape_arrows (f : α → β) (t : Tree Head α) (steps : List String) :
    ((arrows key t steps).map id f).strip = arrows (fun s => f (key s)) (t.map id f).strip steps := by
  induction steps generalizing t with
  | nil => rfl
  | cons step rest ih =>
    cases rest with
    | nil => rfl
    | cons next rest => exact ih _

/-- Behind a step there is an arrow on top. -/
theorem exists_arrow (key : String → α) {t : Tree Head α} {steps : List String} (h : steps ≠ []) :
    ∃ asText l r, arrows key t steps = .operation (.arrow asText) l r := by
  induction steps generalizing t with
  | nil => exact absurd rfl h
  | cons step rest ih =>
    cases rest with
    | nil => exact ⟨true, t, _, rfl⟩
    | cons next rest => exact ih (List.cons_ne_nil _ _)

theorem shape_lengthsTree (f : α → β) (n : Nat) (t : Tree Head α) :
    ((lengthsTree n t).map id f).strip = lengthsTree n (t.map id f).strip := by
  induction n with
  | zero => rfl
  | succ n ih => exact congrArg (fun t => Tree.group [["LENGTH("], [")"]] [t]) ih

theorem shape_memberTree (column : String → α) (f : α → β) (path : List String) :
    ((memberTree column key path).map id f).strip = memberTree (fun b => f (column b)) (fun s => f (key s)) path := by
  rw [memberTree, shape_lengthsTree, shape_arrows]
  rfl

/-- A length is taken when the last segment asks for it. -/
theorem lengthDepth_pos_iff (path : List String) : 0 < lengthDepth path ↔ isLengthPath path := by
  cases path with
  | nil => simp [lengthDepth, isLengthPath]
  | cons base steps =>
    rw [lengthDepth, List.drop_one, List.tail_cons]
    rcases List.eq_nil_or_concat steps with rfl | ⟨steps, last, rfl⟩
    · simp [isLengthPath]
    · have hname : memberName (base :: (steps ++ [last])) = last := by
        rw [← List.cons_append, memberName, List.getLast?_concat, Option.getD_some]
      rw [isLengthPath, List.concat_eq_append, hname]
      by_cases hlast : last = "Length" <;> simp [hlast]

/-- How strongly a member binds. -/
theorem binds_memberTree (column : String → α) (root : Option Source) (path : List String) (type : ValueType)
    (m : Mode) : Binds m (.member root path type) (memberTree column key path) := by
  by_cases hlength : isLengthPath path
  · obtain ⟨n, hn⟩ := Nat.exists_eq_succ_of_ne_zero ((lengthDepth_pos_iff path).2 hlength).ne'
    rw [memberTree, hn]
    exact binds_atom (by simp [Expr.precedence?, hlength]) (by simp) (.inr ⟨_, _, rfl⟩)
  · have hzero : lengthDepth path = 0 := Nat.eq_zero_of_not_pos (mt (lengthDepth_pos_iff path).1 hlength)
    rw [memberTree, hzero, Nat.sub_zero, List.take_length]
    by_cases hsteps : path.drop 1 = []
    · have hshort : ¬1 < path.length := Nat.not_lt.2 (List.drop_eq_nil_iff.1 hsteps)
      rw [hsteps]
      exact binds_atom (by simp [Expr.precedence?, hshort]) (by simp) (.inl ⟨_, rfl⟩)
    · obtain ⟨asText, l, r, harrow⟩ := exists_arrow key (t := .leaf (column (path.headD ""))) hsteps
      have hlong : 1 < path.length := Nat.lt_of_not_le (mt List.drop_eq_nil_iff.2 hsteps)
      have hp : (Expr.member root path type).precedence? m = some otherPrecedence := by
        simp [Expr.precedence?, hlong, hlength]
      rw [lengthsTree, harrow]
      refine ⟨fun h => ?_, fun p h => .inl (Option.some.inj (hp.symm.trans h)), by simp, by simp [Tree.top], by simp⟩
      rw [hp] at h
      cases h

end Members

section Paths

variable {sc : Scope} {f : Fragment Slot} {u : Term Slot} {t : Tree Head (Atom × Fragment Slot)}

/-- A key with its token. -/
def keyLeaf (s : String) : Atom × Fragment Slot := (.key s, [.key s])

/-- One step into a document. -/
theorem Written.arrow (h : Written sc f t) (hlevel : (Operator.arrow true).level ≤ t.level) (hbare : ∀ x, t ≠ .paren x)
    (asText : Bool) (s : String) :
    Written sc (f ++ [Token.text (Operator.arrow asText).text, Token.key s])
      (.operation (.arrow asText) t (.leaf (keyLeaf s))) :=
  h.operation (.arrow asText) (written_leaf (.key s) rfl)
    ⟨hlevel, fun hc => absurd hc (by cases asText <;> decide), fun x hx => absurd hx (hbare x)⟩
    ⟨.inl (Operator.level_lt_atomLevel _), by simp⟩

/-- The way into a document. -/
theorem Written.arrows (h : Written sc f t) (hlevel : (Operator.arrow true).level ≤ t.level) (hbare : ∀ x, t ≠ .paren x)
    (steps : List String) : Written sc (f ++ Fragment.traversal steps) (arrows keyLeaf t steps) := by
  induction steps generalizing f t with
  | nil =>
    rw [Fragment.traversal, List.append_nil]
    exact h
  | cons step rest ih =>
    cases rest with
    | nil => exact h.arrow hlevel hbare true step
    | cons next rest =>
      have hrest := ih (h.arrow hlevel hbare false step) le_rfl (by simp)
      rw [List.append_assoc] at hrest
      exact hrest

theorem opening_length : Opening ")" ["LENGTH("] := ⟨by decide, by decide, by decide⟩

theorem closing_paren : Closing ")" [")"] := ⟨by decide, by decide, by decide⟩

/-- Lengths around a term. -/
theorem Written.lengths (h : Written sc u.fragment t) (n : Nat) :
    Written sc (lengths n u).fragment (lengthsTree n t) := by
  induction n with
  | zero => exact h
  | succ n ih =>
    have hgroup : Written sc _ (.group [["LENGTH("], [")"]] [lengthsTree n t]) :=
      .group opening_length (.last closing_paren) (by simpa using ih.own)
    refine hgroup.of_eq ?_
    rw [ParamQuery.lengths, Term.fragment, ih.fragment]
    simp [weave]

end Paths

theorem emitRoot_of_isNone {root : Option Source} (h : ∀ s ∈ root, s.groupJoin.isNone) (sc : Scope) (m : Mode)
    (beside : Bool) :
    emitRoot root sc m.forMemberRoot beside = .table (sc.tableName (root.bind (·.table))) := by
  cases root with
  | none => rfl
  | some s =>
    obtain ⟨typeName, members, own, groupJoin⟩ := s
    have hnone : groupJoin = none := Option.isNone_iff_eq_none.1 (h _ rfl)
    subst hnone
    rfl

/-- The text of a member that is accepted. -/
theorem fragment_member {sc : Scope} {root : Option Source} (h : ∀ s ∈ root, s.groupJoin.isNone) {path : List String}
    {type : ValueType} {m : Mode} {beside : Bool} (hm : m.labelling = false)
    (hacc : ((Expr.member root path type).emit sc m beside).term.Accepted) :
    ((Expr.member root path type).emit sc m beside).term.fragment = (lengths (lengthDepth path)
      (.column (.table (sc.tableName (root.bind (·.table))))
        (((sc.column? (root.bind (·.table)) ((path.take (path.length - lengthDepth path)).headD "")).map
          (·.dbName)).getD ((path.take (path.length - lengthDepth path)).headD ""))
        ((path.take (path.length - lengthDepth path)).drop 1))).fragment := by
  simp only [Expr.emit] at hacc ⊢
  by_cases hpath : path.isEmpty
  · rw [if_pos hpath] at hacc
    exact absurd (hacc (.reject .emptyPath) (by simp [Emitted.term, Emitted.ofTerm, caseTerm, Term.slots]))
      (by simp [Slot.isAccepted])
  · rw [if_neg hpath] at hacc ⊢
    rw [Term.Accepted, slots_memberTerm] at hacc
    rw [← emitRoot_of_isNone h sc m beside, ← columnTerm_of_accepted hacc]
    simp [memberTerm, Emitted.term, Emitted.ofTerm, caseTerm, labelIf, hm]

theorem Shaped.member {sc : Scope} {root : Option Source} (h : ∀ s ∈ root, s.groupJoin.isNone) (path : List String)
    (type : ValueType) : Shaped sc (.member root path type) := by
  intro m beside hm hacc
  let own := root.bind (·.table)
  let column := fun base => (Atom.column root base,
    (Fragment.qualified (sc.tableName own) (((sc.column? own base).map (·.dbName)).getD base) : Fragment Slot))
  have hcolumn : ∀ base, Written sc (column base).2 (.leaf (column base)) := fun base => written_leaf _ rfl
  refine ⟨memberTree column keyLeaf path, ?_, shape_memberTree column Prod.fst path,
    binds_memberTree column root path type m⟩
  rw [fragment_member h hm hacc]
  refine Written.lengths ?_ _
  exact (hcolumn _).arrows (Operator.level_lt_atomLevel _).le nofun _

/-! ## Calls -/

section Calls

variable {β : Type}

theorem fragment_call (method : Method) (n : Nat) (arguments : List (Term β)) :
    (Term.call (.ofMethod method n) arguments).fragment =
      (method.layout n).splice fun i => (arguments.map Term.fragment).getD i [] := by
  rw [Term.fragment, termFragments_eq_map, Template.expand_eq_splice, Method.fragment_ofMethod, Fragment.splice_map]

theorem Method.accepts_iff {m : Method} {n : Nat} :
    m.accepts n ↔ m.minArguments ≤ n ∧ ∀ k ∈ m.maxArguments, n ≤ k := by
  rw [Method.accepts, Bool.and_eq_true, decide_eq_true_eq]
  cases m.maxArguments <;> simp

/-- The operands of a call as its layout numbers them. -/
def Method.numbered (m : Method) (receiver : Option (Fragment β)) (arguments : List (Fragment β)) : List (Fragment β) :=
  if m = .concat then [Fragment.separated ", " arguments] else receiver.toList ++ arguments

theorem separated_eq_weave (s closing : String) (f : Fragment β) (fs : List (Fragment β)) :
    Fragment.separated s (f :: fs) ++ [Token.text closing] =
      weave (f :: fs) (List.replicate fs.length [Token.text s] ++ [[Token.text closing]]) := by
  induction fs generalizing f with
  | nil => simp [Fragment.separated, weave]
  | cons g fs ih =>
    rw [List.length_cons, List.replicate_succ, List.cons_append, weave, ← ih]
    simp [Fragment.separated]

/-- The layout of a call is its operands between its keywords. -/
theorem Method.splice_layout {m : Method} {head : Head} {receiver : Option (Fragment β)}
    {arguments : List (Fragment β)} (hkeywords : m.keywords? arguments.length = some head)
    (haccepts : m.accepts arguments.length) (hreceiver : receiver.isSome = m.hasReceiver) :
    (m.layout arguments.length).splice (fun i => (m.numbered receiver arguments).getD i []) =
      (head.headD []).map Token.text ++ weave (m.operands receiver arguments)
        (head.tail.map fun run => run.map Token.text) := by
  cases m with
  | equals | substring | contains | startsWith | endsWith => cases hkeywords
  | toLower | toUpper | reverse | length =>
    obtain rfl : arguments = [] := by simpa [Method.accepts, Method.minArguments, Method.maxArguments] using haccepts
    obtain ⟨r, rfl⟩ := Option.isSome_iff_exists.1 hreceiver
    cases hkeywords
    simp [Method.layout, Method.numbered, Method.operands, Method.isTrim, weave, Fragment.splice, Token.splice]
  | concat =>
    cases arguments with
    | nil => cases haccepts
    | cons a arguments =>
      have hnone : receiver = none := by simpa [Method.hasReceiver] using hreceiver
      subst hnone
      cases hkeywords
      have hweave := separated_eq_weave ", " ")" a arguments
      simp [Method.layout, Method.numbered, Method.operands, Method.isTrim, Fragment.splice, Token.splice, hweave]
  | replace =>
    obtain ⟨a, b, rfl⟩ : ∃ a b, arguments = [a, b] := by
      obtain ⟨hleast, hmost⟩ := Method.accepts_iff.1 haccepts
      exact List.length_eq_two.1 (le_antisymm (hmost 2 rfl) hleast)
    obtain ⟨r, rfl⟩ := Option.isSome_iff_exists.1 hreceiver
    cases hkeywords
    simp [Method.layout, Method.numbered, Method.operands, Method.isTrim, weave, Fragment.splice, Token.splice]
  | trim | trimStart | trimEnd =>
    obtain ⟨r, rfl⟩ := Option.isSome_iff_exists.1 hreceiver
    cases hkeywords
    cases arguments with
    | nil =>
      simp [Method.layout, Method.numbered, Method.operands, Method.isTrim, Method.trimKeywords, weave,
        Fragment.splice, Token.splice]
    | cons a arguments =>
      obtain rfl : arguments = [] := by simpa [Method.accepts, Method.minArguments, Method.maxArguments] using haccepts
      simp [Method.layout, Method.numbered, Method.operands, Method.isTrim, Method.trimKeywords, weave,
        Fragment.splice, Token.splice]

/-- The keywords of a call stand around as many operands as it has. -/
theorem Method.keywords_laid {m : Method} {n : Nat} {head : Head} (hkeywords : m.keywords? n = some head)
    (haccepts : m.accepts n) :
    ∃ first rest, head = first :: rest ∧ Opening ")" first ∧
      Keywords ")" rest ((if m.hasReceiver then 1 else 0) + n) := by
  have hcomma : Between ")" [", "] := ⟨by decide, by decide, by decide⟩
  have hfrom : Between ")" [" from "] := ⟨by decide, by decide, by decide⟩
  have hlast : Keywords ")" [[")"]] 1 := .last closing_paren
  have hn := Method.accepts_iff.1 haccepts
  cases m with
  | equals | substring | contains | startsWith | endsWith => cases hkeywords
  | toLower | toUpper | reverse | length =>
    obtain rfl : n = 0 := Nat.le_zero.1 (hn.2 0 rfl)
    cases hkeywords
    exact ⟨_, _, rfl, ⟨by decide, by decide, by decide⟩, hlast⟩
  | concat =>
    obtain ⟨n, rfl⟩ : ∃ k, n = k + 1 := ⟨n - 1, (Nat.sub_add_cancel hn.1).symm⟩
    cases hkeywords
    refine ⟨_, _, rfl, ⟨by decide, by decide, by decide⟩, ?_⟩
    have hcommas : ∀ k, Keywords ")" (List.replicate k [", "] ++ [[")"]]) (k + 1) := by
      intro k
      induction k with
      | zero => exact hlast
      | succ k ih => exact .next hcomma ih
    simpa [Method.hasReceiver] using hcommas n
  | replace =>
    obtain rfl : n = 2 := le_antisymm (hn.2 2 rfl) hn.1
    cases hkeywords
    exact ⟨_, _, rfl, ⟨by decide, by decide, by decide⟩, .next hcomma (.next hcomma hlast)⟩
  | trim | trimStart | trimEnd =>
    have hle : n ≤ 1 := hn.2 1 rfl
    cases hkeywords
    interval_cases n
    · exact ⟨_, _, rfl, ⟨by decide, by decide, by decide⟩, hlast⟩
    · exact ⟨_, _, rfl, ⟨by decide, by decide, by decide⟩, .next hfrom hlast⟩

end Calls

theorem receiver_of_callOf {method : Method} {receiver : Option Expr} {arguments : List Expr} {e : Expr}
    (h : Expr.callOf method receiver arguments = .ok e) : receiver.isSome = method.hasReceiver := by
  unfold Expr.callOf at h
  cases hasReceiver : method.hasReceiver <;> cases receiver <;> simp_all

theorem Method.operands_map {σ τ : Type} (m : Method) (f : σ → τ) (receiver : Option σ) (arguments : List σ) :
    (m.operands receiver arguments).map f = m.operands (receiver.map f) (arguments.map f) := by
  unfold Method.operands
  split <;> cases receiver <;> simp

theorem Method.length_operands {τ : Type} {m : Method} {receiver : Option τ} (h : receiver.isSome = m.hasReceiver)
    (arguments : List τ) :
    (m.operands receiver arguments).length = (if m.hasReceiver then 1 else 0) + arguments.length := by
  rw [← h]
  unfold Method.operands
  split <;> cases receiver <;> simp [Nat.add_comm]

theorem Method.mem_operands {τ : Type} {m : Method} {receiver : Option τ} {arguments : List τ} {t : τ}
    (h : t ∈ m.operands receiver arguments) : t ∈ receiver ∨ t ∈ arguments := by
  unfold Method.operands at h
  split at h
  · exact (List.mem_append.1 h).symm.imp_left Option.mem_toList.1
  · exact (List.mem_append.1 h).imp_left Option.mem_toList.1

section CallShapes

variable {sc : Scope}

/-- Operands one after another. -/
theorem shaped_each {es : List Expr} (h : ∀ e ∈ es, Shaped sc e) {m : Mode} (hm : m.labelling = false) {beside : Bool}
    (hacc : ∀ e ∈ es, (e.emit sc m beside).term.Accepted) :
    ∃ ts : List (Tree Head (Atom × Fragment Slot)),
      ts.map (Tree.fragment Prod.snd) = es.map (fun e => (e.emit sc m beside).term.fragment) ∧
        ts.map shapeOf = es.map Expr.tree ∧ ∀ t ∈ ts, Written sc (t.fragment Prod.snd) t := by
  induction es with
  | nil => exact ⟨[], rfl, rfl, by simp⟩
  | cons e es ih =>
    obtain ⟨t, hwritten, hshape, -⟩ := h e (by simp) m beside hm (hacc e (by simp))
    obtain ⟨ts, hfragments, hshapes, hts⟩ := ih (fun e he => h e (by simp [he])) fun e he => hacc e (by simp [he])
    refine ⟨t :: ts, ?_, ?_, ?_⟩
    · rw [List.map_cons, List.map_cons, hfragments, ← hwritten.fragment]
    · rw [List.map_cons, List.map_cons, hshapes, hshape]
    · simpa using ⟨hwritten.own, hts⟩

/-- A call is written as its operands between its keywords. -/
theorem written_call {method : Method} (receiver : Option (Tree Head (Atom × Fragment Slot)))
    {arguments : List (Tree Head (Atom × Fragment Slot))} {head : Head}
    (hhead : method.keywords? arguments.length = some head) (haccepts : method.accepts arguments.length)
    (hreceiver : receiver.isSome = method.hasReceiver) (hr : ∀ t ∈ receiver, Written sc (t.fragment Prod.snd) t)
    (ha : ∀ t ∈ arguments, Written sc (t.fragment Prod.snd) t) :
    Written sc ((method.layout arguments.length).splice fun i =>
      (method.numbered (receiver.map (Tree.fragment Prod.snd)) (arguments.map (Tree.fragment Prod.snd))).getD i [])
      (.group head (method.operands receiver arguments)) := by
  obtain ⟨first, rest, rfl, hfirst, hrest⟩ := Method.keywords_laid hhead haccepts
  rw [← Method.length_operands hreceiver] at hrest
  have hgroup := Written.group hfirst hrest fun t ht => (Method.mem_operands ht).elim (hr t) (ha t)
  have hlength : (arguments.map (Tree.fragment Prod.snd)).length = arguments.length := List.length_map _
  rw [← hlength] at hhead haccepts ⊢
  rw [Method.splice_layout hhead haccepts (by rwa [Option.isSome_map]), ← Method.operands_map]
  exact hgroup

/-- A call whose operands are written. -/
theorem shaped_operands {method : Method} {receiver : Option Expr} {arguments : List Expr}
    (hkeywords : (method.keywords? arguments.length).isSome)
    (hcall : Expr.callOf method receiver arguments = .ok (.call method receiver arguments))
    {r : Option (Tree Head (Atom × Fragment Slot))} {as : List (Tree Head (Atom × Fragment Slot))}
    (hr : ∀ t ∈ r, Written sc (t.fragment Prod.snd) t) (hrs : r.map shapeOf = receiver.map Expr.tree)
    (ha : ∀ t ∈ as, Written sc (t.fragment Prod.snd) t) (has : as.map shapeOf = arguments.map Expr.tree)
    {terms : List (Term Slot)} (hterms : terms.map Term.fragment =
      method.numbered (r.map (Tree.fragment Prod.snd)) (as.map (Tree.fragment Prod.snd))) (m : Mode) :
    ∃ t, Written sc (Term.call (.ofMethod method arguments.length) terms).fragment t ∧
      shapeOf t = (Expr.call method receiver arguments).tree ∧ Binds m (.call method receiver arguments) t := by
  obtain ⟨head, hhead⟩ := Option.isSome_iff_exists.1 hkeywords
  have haccepts := (accepts_of_callOf hcall).2
  have hreceiver : r.isSome = method.hasReceiver := by
    rw [← receiver_of_callOf hcall, ← Option.isSome_map (f := shapeOf), hrs, Option.isSome_map]
  have hlength : as.length = arguments.length := by simpa using congrArg List.length has
  have hpredicate : method.isPredicate = false := by
    cases method <;> first | rfl | cases hhead
  refine ⟨.group head (method.operands r as), ?_, ?_, binds_atom ?_ nofun (.inr ⟨_, _, rfl⟩)⟩
  · rw [← hlength] at hhead haccepts ⊢
    rw [fragment_call, hterms]
    exact written_call r hhead haccepts hreceiver hr ha
  · rw [shapeOf_group, Method.operands_map, hrs, has, ← optionTree_eq_map, ← eachTree_eq_map]
    simp only [Expr.tree, Expr.branches, hhead, caseTree]
  · simp [Expr.precedence?, hpredicate]

theorem Shaped.call {method : Method} {receiver : Option Expr} {arguments : List Expr}
    (hkeywords : (method.keywords? arguments.length).isSome)
    (hcall : Expr.callOf method receiver arguments = .ok (.call method receiver arguments))
    (hr : ∀ e ∈ receiver, Shaped sc e) (ha : ∀ e ∈ arguments, Shaped sc e) :
    Shaped sc (.call method receiver arguments) := by
  intro m beside _ hacc
  have hreceiver := receiver_of_callOf hcall
  simp only [Expr.emit] at hacc ⊢
  by_cases hconcat : method = .concat
  · rw [if_pos hconcat] at hacc ⊢
    have hnone : receiver = none := by simpa [hconcat, Method.hasReceiver] using hreceiver
    subst hnone
    obtain ⟨as, hfragments, hshapes, has⟩ := shaped_each ha (m := m.operand) rfl fun e he s hs => hacc s (by
      simp only [Emitted.term, Emitted.ofTerm, caseTerm, Term.slots, termSlots, emitEach_eq_map, termSlots_eq_flatMap]
      simpa using ⟨e, he, hs⟩)
    refine shaped_operands hkeywords hcall (r := none) (by simp) rfl has hshapes ?_ m
    rw [hfragments, Method.numbered, if_pos hconcat, emitEach_eq_map]
    simp [Term.fragment, termFragments_eq_map, Function.comp_def]
  · rw [if_neg hconcat] at hacc ⊢
    obtain ⟨r, rfl⟩ := Option.isSome_iff_exists.1 (hreceiver.trans (by simpa [Method.hasReceiver] using hconcat))
    simp only [emitOption] at hacc ⊢
    obtain ⟨t, hwritten, hs, -⟩ := hr r rfl m.operand false rfl fun s hs => hacc s (by
      simp only [Emitted.term, Emitted.ofTerm, caseTerm, Term.slots, termSlots]
      exact List.mem_append_left _ hs)
    obtain ⟨as, hfragments, hshapes, has⟩ := shaped_each ha (m := m.operand) rfl fun e he s hs => hacc s (by
      simp only [Emitted.term, Emitted.ofTerm, caseTerm, Term.slots, termSlots, emitEach_eq_map, termSlots_eq_flatMap]
      exact List.mem_append_right _ (by simpa using ⟨e, he, hs⟩))
    refine shaped_operands hkeywords hcall (r := some t) (by simpa using hwritten.own) (congrArg some hs) has hshapes
      ?_ m
    rw [hfragments, Method.numbered, if_neg hconcat, emitEach_eq_map, Option.map_some, ← hwritten.fragment]
    simp [Function.comp_def]

end CallShapes

/-! ## Conditionals -/

section Guards

variable {α β : Type}

/-- Guards as they are written: each in parentheses, unless there is only one. -/
def guardTree : List (Tree Head α) → Tree Head α
  | [t] => t
  | ts => allOf (ts.map .paren)

theorem shape_foldl_and (f : α → β) (t : Tree Head α) (ts : List (Tree Head α)) :
    ((ts.foldl (.operation (.binary (.operator .andAlso))) t).map id f).strip =
      (ts.map fun t => (t.map id f).strip).foldl (.operation (.binary (.operator .andAlso))) (t.map id f).strip := by
  induction ts generalizing t with
  | nil => rfl
  | cons u ts ih => exact ih _

/-- Without their parentheses guards hold together. -/
theorem shape_guardTree (f : α → β) (ts : List (Tree Head α)) :
    ((guardTree ts).map id f).strip = allOf (ts.map fun t => (t.map id f).strip) := by
  match ts with
  | [] => rfl
  | [t] => rfl
  | t :: u :: ts =>
    refine (shape_foldl_and f _ _).trans ?_
    rw [List.map_map]
    rfl

theorem separated_cons (s : String) (f : Fragment β) (fs : List (Fragment β)) :
    Fragment.separated s (f :: fs) = f ++ fs.flatMap (Token.text s :: ·) := by
  induction fs generalizing f with
  | nil => simp [Fragment.separated]
  | cons g fs ih =>
    show f ++ Token.text s :: Fragment.separated s (g :: fs) = _
    rw [ih, List.flatMap_cons, List.cons_append]

/-- The keywords of a `CASE`. -/
theorem keywords_arm (n : Nat) : Keywords "END" (armKeywords n) (2 * n + 1) := by
  have hthen : Between "END" [" THEN "] := ⟨by decide, by decide, by decide⟩
  have hwhen : Between "END" [" WHEN "] := ⟨by decide, by decide, by decide⟩
  have helse : Between "END" [" ELSE "] := ⟨by decide, by decide, by decide⟩
  have hend : Keywords "END" [[" END"]] 1 := .last ⟨by decide, by decide, by decide⟩
  induction n with
  | zero => exact hend
  | succ n ih =>
    cases n with
    | zero => exact .next hthen (.next helse hend)
    | succ n => exact .next hthen (.next hwhen ih)

/-- Arms as a `CASE` writes them. -/
theorem fragment_arms {τ : Type} (guard value : τ → Fragment β) (arm : τ) (arms : List τ) (otherwise : Fragment β) :
    (arm :: arms).flatMap (fun a => Token.text " WHEN " :: guard a ++ Token.text " THEN " :: value a) ++
        Token.text " ELSE " :: otherwise ++ [Token.text " END"] =
      Token.text " WHEN " :: weave ((arm :: arms).flatMap (fun a => [guard a, value a]) ++ [otherwise])
        ((armKeywords (arm :: arms).length).map fun run => run.map .text) := by
  induction arms generalizing arm with
  | nil => simp [armKeywords, weave]
  | cons next arms ih =>
    have hlength : armKeywords (arm :: next :: arms).length =
        [" THEN "] :: [" WHEN "] :: armKeywords (next :: arms).length := rfl
    have hrest := ih next
    rw [hlength]
    simp only [List.flatMap_cons, List.append_assoc, List.cons_append, List.nil_append] at hrest ⊢
    simp only [List.map_cons, List.map_nil, weave]
    simp [hrest]

end Guards

section Places

variable {ι κ : Type} {P Q : ι → Prop} {d : Decision ι}

theorem Sql.Decision.All.imp (h : d.All P) (himp : ∀ a, P a → Q a) : d.All Q := by
  induction d with
  | leaf a => exact himp a h
  | test condition ifTrue ifFalse ihT ihF => exact ⟨himp condition h.1, ihT h.2.1, ihF h.2.2⟩

theorem Sql.Decision.All.and (h : d.All P) (h' : d.All Q) : d.All fun a => P a ∧ Q a := by
  induction d with
  | leaf a => exact ⟨h, h'⟩
  | test condition ifTrue ifFalse ihT ihF => exact ⟨⟨h.1, h'.1⟩, ihT h.2.1 h'.2.1, ihF h.2.2 h'.2.2⟩

theorem Sql.Decision.all_map {f : ι → κ} {P : κ → Prop} : (d.map f).All P ↔ d.All fun a => P (f a) := by
  induction d with
  | leaf a => exact Iff.rfl
  | test condition ifTrue ifFalse ihT ihF => exact and_congr Iff.rfl (and_congr ihT ihF)

theorem Sql.Decision.All.map_congr {f g : ι → κ} (h : d.All P) (hfg : ∀ a, P a → f a = g a) : d.map f = d.map g := by
  induction d with
  | leaf a => exact congrArg Decision.leaf (hfg a h)
  | test condition ifTrue ifFalse ihT ihF =>
    rw [Decision.map, Decision.map, hfg condition h.1, ihT h.2.1, ihF h.2.2]

/-- Something for each place, put beside it. -/
theorem Sql.Decision.All.exists_map {R : ι → κ → Prop} (h : d.All fun a => ∃ b, R a b) :
    ∃ pairs : Decision (ι × κ), pairs.map Prod.fst = d ∧ pairs.All fun p => R p.1 p.2 := by
  induction d with
  | leaf a =>
    obtain ⟨b, hb⟩ := h
    exact ⟨.leaf (a, b), rfl, hb⟩
  | test condition ifTrue ifFalse ihT ihF =>
    obtain ⟨⟨b, hb⟩, hT, hF⟩ := h
    obtain ⟨dT, rfl, hdT⟩ := ihT hT
    obtain ⟨dF, rfl, hdF⟩ := ihF hF
    exact ⟨.test (condition, b) dT dF, rfl, hb, hdT, hdF⟩

end Places

section Cases

variable {sc : Scope}

/-- Guards behind one another. -/
theorem Written.foldl_and {f : Fragment Slot} {t : Tree Head (Atom × Fragment Slot)} (h : Written sc f t)
    (hlevel : (Operator.binary (.operator .andAlso)).level ≤ t.level) {ts : List (Tree Head (Atom × Fragment Slot))}
    (hts : ∀ t ∈ ts, Written sc (t.fragment Prod.snd) t) :
    Written sc (f ++ ts.flatMap fun t => Token.text " AND " :: Fragment.parenthesized (t.fragment Prod.snd))
      ((ts.map .paren).foldl (.operation (.binary (.operator .andAlso))) t) := by
  induction ts generalizing f t with
  | nil => simpa using h
  | cons u ts ih =>
    have hstep := h.operation (.binary (.operator .andAlso)) (hts u (by simp)).paren
      ⟨hlevel, fun hc => absurd hc (by decide), fun _ _ hconn => absurd rfl hconn⟩
      ⟨.inl (Operator.level_lt_atomLevel _), fun _ _ _ hconn => absurd rfl hconn⟩
    have hrest := ih hstep le_rfl fun t ht => hts t (by simp [ht])
    rw [List.append_assoc] at hrest
    exact hrest

theorem written_guardTree {ts : List (Tree Head (Atom × Fragment Slot))} (hne : ts ≠ [])
    (hts : ∀ t ∈ ts, Written sc (t.fragment Prod.snd) t) :
    Written sc (guardFragment (ts.map (Tree.fragment Prod.snd))) (guardTree ts) := by
  match ts with
  | [] => exact absurd rfl hne
  | [t] => exact hts t (by simp)
  | t :: u :: ts =>
    have hfold := (hts t (by simp)).paren.foldl_and (Operator.level_lt_atomLevel _).le
      fun t ht => hts t (List.mem_cons_of_mem _ ht)
    have hfragment : guardFragment ((t :: u :: ts).map (Tree.fragment Prod.snd)) =
        Fragment.parenthesized (t.fragment Prod.snd) ++
          (u :: ts).flatMap fun t => .text " AND " :: Fragment.parenthesized (t.fragment Prod.snd) := by
      show Fragment.separated " AND " (_ :: _) = _
      simp [separated_cons, List.flatMap_map]
    rw [hfragment]
    exact hfold

/-- The guards of an arm are not empty. -/
theorem Sql.Decision.guards_ne_nil {ι : Type} (d : Decision ι) (guards : List ι) :
    ∀ arm ∈ (d.flattenUnder guards).1, arm.1 ≠ [] := by
  induction d generalizing guards with
  | leaf x => simp [Decision.flattenUnder]
  | test condition ifTrue ifFalse ihT ihF =>
    intro arm harm
    simp only [Decision.flattenUnder, List.mem_append, List.mem_cons] at harm
    rcases harm with harm | rfl | harm
    · exact ihT _ arm harm
    · simp
    · exact ihF _ arm harm

theorem Sql.Decision.flatten_map {ι κ : Type} (f : ι → κ) (d : Decision ι) :
    (d.map f).flatten = (d.flatten.1.map fun arm => (arm.1.map f, f arm.2), f d.flatten.2) :=
  Decision.flattenUnder_map f d []

/-- Arms from their trees. -/
theorem written_caseGroup {arms : List (Tree Head (Atom × Fragment Slot) × Tree Head (Atom × Fragment Slot))}
    (hne : arms ≠ []) {otherwise : Tree Head (Atom × Fragment Slot)}
    (harms : ∀ arm ∈ arms, Written sc (arm.1.fragment Prod.snd) arm.1 ∧ Written sc (arm.2.fragment Prod.snd) arm.2)
    (hotherwise : Written sc (otherwise.fragment Prod.snd) otherwise) :
    Written sc (Token.text "CASE" :: arms.flatMap (fun arm => Token.text " WHEN " :: arm.1.fragment Prod.snd ++
        Token.text " THEN " :: arm.2.fragment Prod.snd) ++
        Token.text " ELSE " :: otherwise.fragment Prod.snd ++ [Token.text " END"])
      (caseGroup arms otherwise) := by
  have hparts : ∀ t ∈ arms.flatMap (fun arm => [arm.1, arm.2]) ++ [otherwise], Written sc (t.fragment Prod.snd) t := by
    intro t ht
    rcases List.mem_append.1 ht with ht | ht
    · obtain ⟨arm, harm, ht⟩ := List.mem_flatMap.1 ht
      simp only [List.mem_cons, List.not_mem_nil, or_false] at ht
      rcases ht with rfl | rfl
      · exact (harms arm harm).1
      · exact (harms arm harm).2
    · exact List.mem_singleton.1 ht ▸ hotherwise
  have hlength : (arms.flatMap (fun arm => [arm.1, arm.2]) ++ [otherwise]).length = 2 * arms.length + 1 := by
    simp [List.length_flatMap, Nat.mul_comm]
  have hopening : Opening "END" ["CASE", " WHEN "] := ⟨by decide, by decide, by decide⟩
  have hgroup := Written.group hopening (hlength ▸ keywords_arm _) hparts
  rw [List.map_append, List.map_flatMap] at hgroup
  obtain ⟨arm, arms, rfl⟩ := List.exists_cons_of_ne_nil hne
  have hfragment := congrArg (Token.text "CASE" :: ·) (fragment_arms (fun a : _ × _ => a.1.fragment Prod.snd)
    (fun a => a.2.fragment Prod.snd) arm arms (otherwise.fragment Prod.snd))
  exact hgroup.of_eq hfragment

section Writing

variable {ι : Type} {write : ι → Term Slot} {tree : ι → Tree Head (Atom × Fragment Slot)}

theorem written_guards {guards : List ι} (hne : guards ≠ [])
    (h : ∀ g ∈ guards, Written sc (write g).fragment (tree g)) :
    Written sc (guardFragment ((guards.map write).map Term.fragment)) (guardTree (guards.map tree)) := by
  have hfragments : (guards.map write).map Term.fragment = (guards.map tree).map (Tree.fragment Prod.snd) := by
    rw [List.map_map, List.map_map]
    exact List.map_congr_left fun g hg => (h g hg).fragment
  rw [hfragments]
  refine written_guardTree (by simpa using hne) fun t ht => ?_
  obtain ⟨g, hg, rfl⟩ := List.mem_map.1 ht
  exact (h g hg).own

theorem written_arms {arms : List (List ι × ι)} {otherwise : ι} (hne : arms ≠ [])
    (hguards : ∀ arm ∈ arms, arm.1 ≠ [] ∧ ∀ g ∈ arm.1, Written sc (write g).fragment (tree g))
    (hvalues : ∀ arm ∈ arms, Written sc (write arm.2).fragment (tree arm.2))
    (hotherwise : Written sc (write otherwise).fragment (tree otherwise)) :
    Written sc (Term.caseWhen (arms.map fun arm => ⟨arm.1.map write, write arm.2⟩) (write otherwise)).fragment
      (caseGroup (arms.map fun arm => (guardTree (arm.1.map tree), tree arm.2)) (tree otherwise)) := by
  have hwritten := fun arm harm => written_guards (hguards arm harm).1 (hguards arm harm).2
  have hfragments : armFragments (arms.map fun arm => ⟨arm.1.map write, write arm.2⟩) =
      (arms.map fun arm => (guardTree (arm.1.map tree), tree arm.2)).flatMap
        fun arm => Token.text " WHEN " :: arm.1.fragment Prod.snd ++
          Token.text " THEN " :: arm.2.fragment Prod.snd := by
    rw [armFragments_eq_flatMap, List.flatMap_map, List.flatMap_map]
    refine List.flatMap_congr fun arm harm => ?_
    rw [Arm.fragment, (hwritten arm harm).fragment, (hvalues arm harm).fragment]
  rw [Term.fragment, hfragments, hotherwise.fragment]
  refine written_caseGroup (by simpa using hne) (fun pair hpair => ?_) hotherwise.own
  obtain ⟨arm, harm, rfl⟩ := List.mem_map.1 hpair
  exact ⟨(hwritten arm harm).own, (hvalues arm harm).own⟩

/-- A decision is written as its `CASE`, each place as its tree. -/
theorem written_caseTree {d : Decision ι} (h : d.All fun x => Written sc (write x).fragment (tree x)) :
    Written sc (caseTerm (d.map write)).fragment (caseTree guardTree (d.map tree)) := by
  cases d with
  | leaf x => exact h
  | test condition ifTrue ifFalse =>
    obtain ⟨harms, hotherwise⟩ := h.flattenUnder (List.forall_mem_nil _)
    have hguards := (Decision.test condition ifTrue ifFalse).guards_ne_nil []
    have hwritten := written_arms (by simp [Decision.flattenUnder])
      (fun arm harm => ⟨hguards arm harm, (harms arm harm).1⟩) (fun arm harm => (harms arm harm).2) hotherwise
    show Written sc (Term.caseWhen ((Decision.map write (.test condition ifTrue ifFalse)).flatten.1.map _) _).fragment
      (caseGroup ((Decision.map tree (.test condition ifTrue ifFalse)).flatten.1.map _) _)
    rw [Decision.flatten_map, Decision.flatten_map, List.map_map, List.map_map]
    exact hwritten

end Writing

/-- Without its parentheses a `CASE` is that of the trees without theirs. -/
theorem shapeOf_caseTree (d : Decision (Tree Head (Atom × Fragment Slot))) :
    shapeOf (caseTree guardTree d) = caseTree allOf (d.map shapeOf) := by
  cases d with
  | leaf t => rfl
  | test condition ifTrue ifFalse =>
    show shapeOf (caseGroup _ _) = caseGroup ((Decision.map shapeOf (.test condition ifTrue ifFalse)).flatten.1.map _) _
    rw [Decision.flatten_map, caseGroup, shapeOf_group, caseGroup, List.length_map, List.length_map, List.length_map]
    simp only [List.map_append, List.flatMap_map, List.map_flatMap, List.map_cons, List.map_nil, shapeOf,
      shape_guardTree]
    rfl

/-- What is shown of the places of a conditional holds of the conditional. -/
theorem shaped_of_decision {e : Expr} (h : e.decision.All (Shaped sc)) : Shaped sc e := by
  cases e with
  | conditional test ifTrue ifFalse =>
    intro m beside _ hacc
    have hterm : ((Expr.conditional test ifTrue ifFalse).emit sc m beside).term =
        caseTerm ((Expr.conditional test ifTrue ifFalse).decision.map fun x => (x.emit sc Mode.arm false).term) :=
      congrArg caseTerm (Expr.tree_emit (.conditional test ifTrue ifFalse) sc)
    rw [hterm] at hacc ⊢
    have haccepted := Decision.all_map.1 (accepted_of_caseTerm hacc)
    -- each place with the tree that it is written as
    obtain ⟨d, hd, htrees⟩ := ((h.and haccepted).imp fun x hx => hx.1 Mode.arm false rfl hx.2).exists_map
    rw [← hd, Decision.map_map]
    refine ⟨caseTree guardTree (d.map Prod.snd), written_caseTree (htrees.imp fun p hp => hp.1), ?_,
      binds_atom (fun p hp => ?_) nofun (.inr ?_)⟩
    · rw [shapeOf_caseTree, Decision.map_map, htrees.map_congr fun p hp => hp.2.1, Expr.tree, Expr.branches_eq, ← hd,
        Decision.map_map]
    · simp only [Expr.precedence?] at hp
      split at hp
      · exact (Option.some.inj hp).symm
      · cases hp
    · cases d with
      | leaf p => cases hd
      | test condition ifTrue ifFalse => exact ⟨_, _, rfl⟩
  | source | subquery | binary | constant | member | call | project => exact h
  | unary op => cases op <;> exact h

end Cases

/-- **Emission writes the tree of an expression.** Wherever it stands, its text is
that of a tree which, without its parentheses, is the tree of the expression; the
parentheses fit. -/
theorem Expr.Plain.shaped {e : Expr} (h : e.Plain) (sc : Scope) : Shaped sc e := by
  have hplaces : e.decision.All (Shaped sc) := by
    induction h with
    | constant v => exact Shaped.constant v
    | subquery q => exact Shaped.subquery q
    | member path type h => exact Shaped.member h path type
    | binary op _ _ ihl ihr => exact Shaped.binary (shaped_of_decision ihl) (shaped_of_decision ihr)
    | not _ ih => exact Shaped.not (shaped_of_decision ih)
    | conditional _ _ _ ih ihT ihF => exact ⟨shaped_of_decision ih, ihT, ihF⟩
    | call hkeywords hcall _ _ ihr iha =>
      exact Shaped.call hkeywords hcall (fun e he => shaped_of_decision (ihr e he)) fun e he =>
        shaped_of_decision (iha e he)
  exact shaped_of_decision hplaces

end ParamQuery
