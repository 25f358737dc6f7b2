/-
Lengths of lengths. A member that ends in `Length` behind another segment is the
length of the member without that segment, its parent. The parent is written as an
operand, so it is given no name and hands on no JSON text (`Expr.emit_length`); and it
is shorter by a segment, so that the way from parent to parent comes to an end.

It ends where there is no length any more: at the first segment, whatever its name is,
or behind the last segment of another name. What is written there stands inside as many
lengths as there were parents (`length_chain`).
-/
import ParamQuery.Proofs.EqualityCalls
import ParamQuery.Proofs.SubqueryPlaces

namespace ParamQuery

open Sql

/-- A text inside so many lengths. -/
def lengthText : Nat → String → String
  | 0, text => text
  | k + 1, text => "LENGTH(" ++ lengthText k text ++ ")"

/-- The name that a member is given behind its text, where members are labelled. -/
def Mode.label (m : Mode) (path : List String) : String :=
  if m.labelling && !m.insideCase then " AS " ++ quoteName (memberName path) else ""

theorem Mode.label_operand (m : Mode) (path : List String) : m.operand.label path = "" := rfl

theorem settleTerm_labelIf (m : Mode) (path : List String) (t : Term Slot) :
    settleTerm (labelIf m path t) = do return (← settleTerm t) ++ m.label path := by
  unfold labelIf Mode.label
  split
  · rw [settleTerm_labelled]
    simp only [String.append_assoc]
  · simp

/-! ## Parents -/

theorem lengthDepth_concat {path : List String} (h : path ≠ []) :
    lengthDepth (path ++ ["Length"]) = lengthDepth path + 1 := by
  obtain ⟨base, steps, rfl⟩ := List.exists_cons_of_ne_nil h
  simp [lengthDepth]

/-- What stands in front of a member does not depend on the mode of the member. -/
theorem emitRoot_mode (root : Option Source) (sc : Scope) (m m' : Mode) (beside : Bool) :
    emitRoot root sc m.forMemberRoot beside = emitRoot root sc m'.forMemberRoot beside := by
  rcases root with _ | ⟨typeName, members, own, _ | ⟨outer, inner⟩⟩ <;> rfl

theorem Expr.emit_member (root : Option Source) {path : List String} (h : path ≠ []) (type : ValueType) (sc : Scope)
    (m : Mode) (beside : Bool) :
    (Expr.member root path type).emit sc m beside =
      memberTerm sc (root.bind (·.table)) (emitRoot root sc m.forMemberRoot beside) path m := by
  rw [Expr.emit, if_neg (by simpa using h)]

/-- **A length is that of the parent**, which is written as an operand. -/
theorem Expr.emit_length (root : Option Source) {path : List String} (h : path ≠ []) (type : ValueType) (sc : Scope)
    (m : Mode) (beside : Bool) :
    (Expr.member root (path ++ ["Length"]) type).emit sc m beside =
      .ofTerm (labelIf m (path ++ ["Length"])
        (.lengthOf ((Expr.member root path .text).emit sc m.operand beside).term)) false := by
  have htake : (path ++ ["Length"]).take ((path ++ ["Length"]).length - (lengthDepth path + 1)) =
      path.take (path.length - lengthDepth path) := by
    rw [List.length_append, List.length_singleton, Nat.add_sub_add_right,
      List.take_append_of_le_length (Nat.sub_le _ _)]
  rw [Expr.emit_member root (by simp), Expr.emit_member root h, emitRoot_mode root sc m m.operand, memberTerm,
    memberTerm, lengthDepth_concat h, htake]
  rfl

/-- A member that is no length is its column. -/
theorem Expr.emit_column (root : Option Source) {path : List String} (h : path ≠ []) (hlength : ¬isLengthPath path)
    (type : ValueType) (sc : Scope) (m : Mode) (beside : Bool) :
    (Expr.member root path type).emit sc m beside =
      .ofTerm (labelIf m path
        (columnTerm sc (root.bind (·.table)) (emitRoot root sc m.forMemberRoot beside) path)) (1 < path.length) := by
  have hdepth : lengthDepth path = 0 := Nat.eq_zero_of_not_pos (mt (lengthDepth_pos_iff path).1 hlength)
  rw [Expr.emit_member root h, memberTerm, hdepth, Nat.sub_zero, List.take_length]
  rfl

/-! ## Chains -/

/-- One more segment is one more length. -/
theorem Expr.emit_lengthChain (root : Option Source) {path : List String} (h : path ≠ []) (k : Nat) (type : ValueType)
    (sc : Scope) (m : Mode) (beside : Bool) :
    (Expr.member root (path ++ List.replicate (k + 1) "Length") type).emit sc m beside =
      .ofTerm (labelIf m (path ++ List.replicate (k + 1) "Length") (.lengthOf
        ((Expr.member root (path ++ List.replicate k "Length") .text).emit sc m.operand beside).term)) false := by
  have hparent : path ++ List.replicate k "Length" ≠ [] := by simp [h]
  rw [List.replicate_succ', ← List.append_assoc, Expr.emit_length root hparent]

/-- A member is settled like its column on its own, with its name behind. -/
theorem settle_column (root : Option Source) {path : List String} (h : path ≠ []) (hlength : ¬isLengthPath path)
    (type type' : ValueType) (sc : Scope) (m : Mode) (beside : Bool) :
    settleTerm ((Expr.member root path type).emit sc m beside).term = do
      return (← settleTerm ((Expr.member root path type').emit sc {} beside).term) ++ m.label path := by
  rw [Expr.emit_column root h hlength, Expr.emit_column root h hlength, emitRoot_mode root sc {} m]
  exact settleTerm_labelIf m path _

/-- **As many lengths as there are parents.** -/
theorem settle_lengthChain (root : Option Source) {path : List String} (h : path ≠ []) (hlength : ¬isLengthPath path)
    (k : Nat) (type type' : ValueType) (sc : Scope) (m : Mode) (beside : Bool) :
    settleTerm ((Expr.member root (path ++ List.replicate k "Length") type).emit sc m beside).term = do
      return lengthText k (← settleTerm ((Expr.member root path type').emit sc {} beside).term) ++
        m.label (path ++ List.replicate k "Length") := by
  -- from each length to its parent, which is written as an operand in whatever mode the length is
  induction k generalizing type m with
  | zero =>
    rw [List.replicate_zero, List.append_nil]
    exact settle_column root h hlength type type' sc m beside
  | succ k ih =>
    rw [Expr.emit_lengthChain root h]
    show settleTerm (labelIf m _ _) = _
    rw [settleTerm_labelIf, settleTerm_lengthOf, ih .text m.operand]
    simp [Mode.label_operand, lengthText]

/-! ## Refusals -/

theorem emitRoot_table {root : Option Source} (h : ∀ s ∈ root, s.groupJoin = none) (sc : Scope) (m : Mode)
    (beside : Bool) :
    emitRoot root sc m.forMemberRoot beside = .table (sc.tableName (root.bind (·.table))) := by
  rcases root with _ | ⟨typeName, members, own, g⟩
  · rfl
  · cases h _ rfl
    rfl

/-- A column of a table is written, or it is refused because it is not known. -/
theorem settle_columnTerm (sc : Scope) (own : Option String) (name : String) {path : List String} (h : path ≠ []) :
    (∃ text, settleTerm (columnTerm sc own (.table name) path) = pure text) ∨
      settleTerm (columnTerm sc own (.table name) path) = throw (.unresolvedMember path sc.table.name) := by
  have hcolumn (column : String) (steps : List String) :
      ∃ text, settleTerm (.column (.table name) column steps) = pure text := ⟨_, rfl⟩
  obtain ⟨base, steps, rfl⟩ := List.exists_cons_of_ne_nil h
  simp only [columnTerm]
  cases sc.column? own base with
  | some c => exact .inl (hcolumn _ _)
  | none =>
    by_cases hstrict : sc.strict && !sc.isForeign own
    · rw [if_pos hstrict]
      exact .inr rfl
    · rw [if_neg hstrict]
      exact .inl (hcolumn _ _)

/-- **Lengths of lengths.** A member with so many segments `Length` behind a path that
ends in none, or that is one segment, is the length of its parent, and so on until the
path, which is no length. So it is what the path is on its own inside so many lengths: in
text, in what is registered, and in what is refused, which is a member that no column
matches. There is no name inside of the lengths, and behind them that of the last segment
where members are labelled; and what has a length beside it is not bound as text. -/
theorem length_chain {root : Option Source} (hroot : ∀ s ∈ root, s.groupJoin = none) {path : List String}
    (hpath : path ≠ []) (hlast : path.length = 1 ∨ memberName path ≠ "Length") (k : Nat) (type type' : ValueType)
    (table : Table) (settings : Settings) (place : Surroundings) :
    let sc := Scope.ofSettings table settings place.qualifier
    let chain := Expr.member root (path ++ List.replicate k "Length") type
    let alone := { place with mode := {} }.visit table settings (.member root path type')
    (¬isLengthPath path ∧ ∀ j < k, ∀ m,
      (Expr.member root (path ++ List.replicate (j + 1) "Length") type).emit sc m place.beside =
        .ofTerm (labelIf m (path ++ List.replicate (j + 1) "Length") (.lengthOf
          ((Expr.member root (path ++ List.replicate j "Length") .text).emit sc m.operand place.beside).term)) false) ∧
    place.visit table settings chain =
      (alone.1.map fun text => lengthText k text ++ place.mode.label (path ++ List.replicate k "Length"), alone.2) ∧
    ((Expr.member root path type').emit sc {} place.beside).term.Unlabelled ∧
    (1 ≤ k → (chain.emit sc place.mode place.beside).jsonText = false) ∧
    ∀ e, alone.1 = .error e → e.kind = "AmbiguousPath" := by
  have hlength : ¬isLengthPath path := by
    simp only [isLengthPath, Bool.and_eq_true, decide_eq_true_eq, beq_iff_eq, not_and]
    intro hlong hname
    rcases hlast with hlast | hlast
    · omega
    · exact hlast hname
  refine ⟨⟨hlength, fun j _ m => Expr.emit_lengthChain root hpath j type _ m _⟩, ?_, ?_, fun hk => ?_, fun e he => ?_⟩
  · rw [Surroundings.visit_eq, Surroundings.visit_eq, settle_lengthChain root hpath hlength k type type',
      Session.run_map]
    rfl
  · refine (Expr.member root path type').staysUnlabelled.term _ _ ?_ (Mode.leaves_plain _)
    cases root with
    | none => rfl
    | some s => simp [Expr.givesNames, hroot s rfl]
  · obtain ⟨j, rfl⟩ := Nat.exists_eq_add_of_le' hk
    rw [Expr.emit_lengthChain root hpath]
    rfl
  · rw [Surroundings.visit_eq, Expr.emit_column root hpath hlength, emitRoot_table hroot] at he
    have hterm (t : Term Slot) (jsonText : Bool) : (Emitted.ofTerm (labelIf {} path t) jsonText).term = t := rfl
    rw [hterm] at he
    rcases settle_columnTerm (.ofSettings table settings place.qualifier) (root.bind (·.table))
      ((Scope.ofSettings table settings place.qualifier).tableName (root.bind (·.table))) hpath with
        ⟨text, hsettle⟩ | hsettle
    · rw [hsettle] at he
      cases he
    · rw [hsettle] at he
      cases he
      rfl

/-- An item of a projection, beside JSON text. -/
def labelledItem : Surroundings where
  events := []
  frames := []
  qualifier := some "a"
  mode := Mode.forLabels {}
  beside := true

/-- A column named `Length`, and a column that is not known. -/
theorem labelledItem_lengths :
    ["Length"].length = 1 ∧ memberName ["doc", "x"] ≠ "Length" ∧
      labelledItem.visit { name := "t" } {} (.member none ["Length", "Length", "Length"] .integer) =
        (.ok "LENGTH(LENGTH(\"a\".\"Length\")) AS \"Length\"",
          labelledItem.session { name := "t" } {} (.ofSettings {})) ∧
      (labelledItem.visit { name := "t" } { strict := true } (.member none ["doc", "x", "Length"] .integer)).1 =
        .error (.unresolvedMember ["doc", "x"] "t") := by
  have hroot : ∀ s ∈ (none : Option Source), s.groupJoin = none := by simp
  have hcolumn := (length_chain hroot (List.cons_ne_nil "Length" []) (.inl rfl) 2 .integer .text { name := "t" } {}
    labelledItem).2.1
  have hunknown := (length_chain hroot (List.cons_ne_nil "doc" ["x"]) (.inr (by decide)) 1 .integer .text
    { name := "t" } { strict := true } labelledItem).2.1
  refine ⟨rfl, by decide, hcolumn.trans ?_, (congrArg Prod.fst hunknown).trans ?_⟩ <;> rfl

end ParamQuery
