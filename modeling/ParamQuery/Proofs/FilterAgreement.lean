/-
Filters and expressions that say the same. A comparison made as a filter, with
the table in front of its column, and the same comparison made as an expression
give one text up to the name of the parameter, and bind the same value as the
same type; tests for null give one text and bind nothing
(`filter_agrees_with_expression`).

Paths into arrays are left out: a filter asks there for some element. So are
paths that end in a length, which filters do not take.
-/
import ParamQuery.Proofs.ExpressionText

namespace ParamQuery

open Sql

/-- The operator of expressions that makes the same comparison. -/
def CompareOp.toBinary : CompareOp → BinaryOp
  | .equal => .equal
  | .notEqual => .notEqual
  | .greaterThan => .greaterThan
  | .greaterThanOrEqual => .greaterThanOrEqual
  | .lessThan => .lessThan
  | .lessThanOrEqual => .lessThanOrEqual

theorem CompareOp.padded_toBinary (op : CompareOp) : op.toBinary.padded = " " ++ op.symbol ++ " " := by
  cases op <;> rfl

theorem CompareOp.precedence_toBinary (op : CompareOp) : op.toBinary.precedence = comparisonPrecedence := by
  cases op <;> rfl

theorem CompareOp.isConcatenation_toBinary (op : CompareOp) (left right : Expr) :
    Expr.isConcatenation op.toBinary left right = false := by
  cases op <;> rfl

/-- The operators that a constant null turns into a test. -/
theorem CompareOp.isEquality_toBinary (op : CompareOp) :
    op.toBinary.isEquality ↔ op = .equal ∨ op = .notEqual := by
  cases op <;> decide

/-! ## Paths -/

/-- The paths that filters and members address alike: a column, or a value
inside a JSON document, and not the length of one. -/
structure Addressed (table : Table) (path : List String) : Prop where
  ne_nil : path ≠ []
  notLength : ¬isLengthPath path
  object : path.length = 1 ∨ ∃ c, table.columnByMember? (path.headD "") = some c ∧ c.shape = .jsonObject

/-- The name of the column that a path starts from. -/
def Table.startName (table : Table) (path : List String) : String :=
  ((table.columnByMember? (path.headD "")).map (·.dbName)).getD (path.headD "")

/-- The column that a path starts from, and the way into it. -/
def Table.place {β : Type} (table : Table) (path : List String) : Fragment β :=
  Fragment.qualified table.name (table.startName path) ++ Fragment.traversal (path.drop 1)

variable {table : Table} {path : List String}

/-- What a filter makes of the path. -/
theorem Addressed.resolve (h : Addressed table path) :
    ColumnPath.resolve ⟨path⟩ table (some table.name) =
      { operand := table.place path, jsonText := decide (1 < path.length) } := by
  simp only [ColumnPath.resolve, ColumnPath.base, ColumnPath.isNested, Table.place, Table.startName, bne_self_eq_false,
    Bool.false_eq_true, if_false]
  rcases h.object with hone | ⟨c, hc, hshape⟩
  · have hdrop : path.drop 1 = [] := List.drop_eq_nil_of_le hone.le
    have hflat : ¬1 < path.length := by omega
    cases table.columnByMember? (path.headD "") <;> simp [hdrop, hflat, Fragment.traversal]
  · rw [hc]
    simp only [hshape, Option.map_some, Option.getD_some]
    by_cases hlong : 1 < path.length
    · simp [hlong]
    · have hdrop : path.drop 1 = [] := List.drop_eq_nil_of_le (by omega)
      simp [hlong, hdrop, Fragment.traversal]

/-- What an expression makes of the path, where unknown members are let through. -/
theorem Addressed.emit (h : Addressed table path) (type : ValueType) {sc : Scope} (htable : sc.table = table)
    (hstrict : sc.strict = false) (hname : sc.qualifier = none) {m : Mode} (hm : m.labelling = false) (beside : Bool) :
    (Expr.member none path type).emit sc m beside =
      .ofTerm (.column (.table table.name) (table.startName path) (path.drop 1)) (decide (1 < path.length)) := by
  have hdepth : lengthDepth path = 0 := Nat.eq_zero_of_not_pos (mt (lengthDepth_pos_iff path).1 h.notLength)
  obtain ⟨base, steps, rfl⟩ := List.exists_cons_of_ne_nil h.ne_nil
  have hcolumn : columnTerm sc none (.table table.name) (base :: steps) =
      .column (.table table.name) (table.startName (base :: steps)) steps := by
    simp only [columnTerm, Scope.column?, Scope.isForeign, htable, hstrict, Table.startName, List.headD_cons]
    cases table.columnByMember? base <;> rfl
  have hroot : emitRoot none sc m.forMemberRoot beside = .table table.name := by
    simp [emitRoot, Scope.tableName, hname, htable]
  simp [Expr.emit, memberTerm, hdepth, hroot, hcolumn, lengths, labelIf, hm]

/-- Beside a comparison or a test for null a member needs no parentheses. -/
theorem needsParens_member (op : BinaryOp) (m : Mode) (root : Option Source) (path : List String) (type : ValueType) :
    needsParens op false comparisonPrecedence false m (.member root path type) = false := by
  by_cases hlong : 1 < path.length ∧ ¬isLengthPath path
  · simp [needsParens, Expr.precedence?, hlong, otherPrecedence, comparisonPrecedence]
  · simp only [needsParens, Expr.precedence?, if_neg hlong]

/-! ## Comparisons and tests -/

/-- A comparison of the path with a value, as a term. -/
theorem Addressed.emit_compare (h : Addressed table path) (type : ValueType) (op : CompareOp) {v : Literal}
    (hv : op = .equal ∨ op = .notEqual → v ≠ .null) {sc : Scope} (htable : sc.table = table)
    (hstrict : sc.strict = false) (hname : sc.qualifier = none) :
    (Expr.binary op.toBinary (.member none path type) (.constant v)).emit sc {} false =
      .ofTerm (.operation (.column (.table table.name) (table.startName path) (path.drop 1)) (.operator op.toBinary)
        (.slot (.value v (decide (1 < path.length))))) false := by
  have hvalue : (op.toBinary.isEquality && (Expr.constant v).isNull) = false := by
    rw [Bool.and_eq_false_imp]
    intro hop
    have hne := hv ((op.isEquality_toBinary).1 hop)
    cases v <;> first | rfl | exact absurd rfl hne
  have hmember : (op.toBinary.isEquality && (Expr.member none path type).isNull) = false := by
    simp [Expr.isNull]
  have hleft := h.emit type htable hstrict hname (m := Mode.operand {}) rfl false
  have hparens := needsParens_member op.toBinary (Mode.operand {}) none path type
  rw [Expr.emit]
  simp only [hvalue, hmember, op.isConcatenation_toBinary, op.precedence_toBinary, hleft, hparens,
    Bool.false_eq_true, if_false]
  rfl

/-- A comparison of the path with null, as a term. -/
theorem Addressed.emit_isNull (h : Addressed table path) (type : ValueType) (negated : Bool) {sc : Scope}
    (htable : sc.table = table) (hstrict : sc.strict = false) (hname : sc.qualifier = none) :
    (Expr.binary (if negated then .notEqual else .equal) (.member none path type) (.constant .null)).emit sc {} false =
      .ofTerm (.nullTest (.column (.table table.name) (table.startName path) (path.drop 1)) negated) false := by
  have hleft := h.emit type htable hstrict hname (m := Mode.operand {}) rfl false
  rw [Expr.emit, hleft]
  cases negated <;> simp only [needsParens_member, Bool.false_eq_true, if_false, if_true] <;> rfl

/-- What such a comparison compiles to. -/
theorem toCommand_compare (stem : String) (op : BinaryOp) (v : Literal) (asText : Bool) :
    (settleTerm (.operation (.column (.table table.name) (table.startName path) (path.drop 1)) (.operator op)
        (.slot (.value v asText)))).toCommand { stem := stem } =
      .ok ⟨Fragment.render (table.place path) ++ op.padded ++ "@" ++ (stem ++ "0"),
        ⟨[(stem ++ "0", boundAs v asText)]⟩⟩ := by
  have hsettle : (settleTerm (.operation (.column (.table table.name) (table.startName path) (path.drop 1))
      (.operator op) (.slot (.value v asText)))).toCommand { stem := stem } =
        .ok ⟨(Term.operation (.column (.table table.name) (table.startName path) (path.drop 1)) (.operator op)
          (.slot ("@" ++ (stem ++ toString 0)))).render, ⟨[(stem ++ toString 0, boundAs v asText)]⟩⟩ := rfl
  have hzero : toString 0 = "0" := by decide
  rw [hsettle, hzero]
  simp [Term.render, Term.fragment, Table.place, Fragment.qualified, Infix.padded, Token.render, String.append_assoc]

theorem toCommand_nullTest (stem : String) (negated : Bool) :
    (settleTerm (.nullTest (.column (.table table.name) (table.startName path) (path.drop 1)) negated)).toCommand
        { stem := stem } =
      .ok ⟨Fragment.render (table.place path) ++ (if negated then " IS NOT NULL" else " IS NULL"), .empty⟩ := by
  have hsettle : (settleTerm (.nullTest (.column (.table table.name) (table.startName path) (path.drop 1))
      negated)).toCommand { stem := stem } =
        .ok ⟨Fragment.render (table.place path ++ [Token.text (if negated then " IS NOT NULL" else " IS NULL")]),
          .empty⟩ := rfl
  rw [hsettle]
  simp [Token.render]

/-- What the same comparison is as a filter. -/
theorem Addressed.command_compare {path : String} (h : Addressed table (pathSegments path)) (op : CompareOp)
    (p : FilterParameter) :
    (Filter.compare path op p).command table (some table.name) =
      ⟨Fragment.render (table.place (pathSegments path)) ++ op.toBinary.padded ++ "@" ++ p.name,
        ⟨[(p.name, boundAs p.value (decide (1 < (pathSegments path).length)))]⟩⟩ := by
  simp [Filter.command, Filter.fragment, Filter.bindings, ColumnPath.parse, h.resolve, PathTarget.predicate,
    op.padded_toBinary, FilterParameter.token, FilterParameter.binding, Parameters.ofList, Parameters.insert,
    Parameters.setIn, Parameters.empty, boundAs, Token.render, String.append_assoc, -String.reduceAppend]

theorem Addressed.command_isNull {path : String} (h : Addressed table (pathSegments path)) (negated : Bool) :
    (Filter.isNull path negated).command table (some table.name) =
      ⟨Fragment.render (table.place (pathSegments path)) ++ (if negated then " IS NOT NULL" else " IS NULL"),
        .empty⟩ := by
  cases negated <;> simp [Filter.command, Filter.fragment, Filter.bindings, ColumnPath.parse, h.resolve,
    PathTarget.predicate, Parameters.ofList, Token.render]

/-- **A filter and the expression that says the same** agree. A comparison
gives one text up to the name behind the sign of the parameter, and binds the
value, as text where it stands beside JSON text; a test for null gives one text
and binds nothing. -/
theorem filter_agrees_with_expression (table : Table) (stem : String) {path : String}
    (h : Addressed table (pathSegments path)) (type : ValueType) :
    (∀ (op : CompareOp) (v : Literal) (name : String), (op = .equal ∨ op = .notEqual → v ≠ .null) →
      ∃ (text : String) (b : Binding), b = boundAs v (decide (1 < (pathSegments path).length)) ∧
        (Filter.compare path op ⟨name, v⟩).command table (some table.name) =
          ⟨text ++ "@" ++ name, ⟨[(name, b)]⟩⟩ ∧
        (Expr.binary op.toBinary (.member none (pathSegments path) type) (.constant v)).compile table
          { stem := stem } none = .ok ⟨text ++ "@" ++ (stem ++ "0"), ⟨[(stem ++ "0", b)]⟩⟩) ∧
    ∀ negated : Bool, ∃ text : String,
      (Filter.isNull path negated).command table (some table.name) = ⟨text, .empty⟩ ∧
      (Expr.binary (if negated then .notEqual else .equal) (.member none (pathSegments path) type)
        (.constant .null)).compile table { stem := stem } none = .ok ⟨text, .empty⟩ := by
  refine ⟨fun op v name hv => ⟨_, _, rfl, h.command_compare op ⟨name, v⟩, ?_⟩,
    fun negated => ⟨_, h.command_isNull negated, ?_⟩⟩
  · rw [Expr.compile, h.emit_compare type op hv rfl rfl rfl]
    exact toCommand_compare stem op.toBinary v _
  · rw [Expr.compile, h.emit_isNull type negated rfl rfl rfl]
    exact toCommand_nullTest stem negated

/-- A table with one column of documents, known by another name. -/
def documentTable : Table :=
  { schema := some "public", name := "t",
    columns := ⟨[{ dbName := "d_doc", memberName := some "doc", type := .jsonb, shape := .jsonObject }]⟩ }

theorem documentTable_addressed : Addressed documentTable (pathSegments "doc.a.b") where
  ne_nil := by decide
  notLength := by decide
  object := .inr ⟨{ dbName := "d_doc", memberName := some "doc", type := .jsonb, shape := .jsonObject }, by decide, rfl⟩

/-- A value two steps inside a document, asked for in both ways. -/
theorem filter_agrees_in_document :
    Addressed documentTable (pathSegments "doc.a.b") ∧ ∃ text : String,
      (Filter.compare "doc.a.b" .lessThan ⟨"lt_0", .int 7⟩).command documentTable (some "t") =
        ⟨text ++ "@" ++ "lt_0", ⟨[("lt_0", ⟨.int 7, some .text⟩)]⟩⟩ ∧
      (Expr.binary .lessThan (.member none ["doc", "a", "b"] .integer) (.constant (.int 7))).compile documentTable
        { stem := "p" } none = .ok ⟨text ++ "@" ++ "p0", ⟨[("p0", ⟨.int 7, some .text⟩)]⟩⟩ := by
  obtain ⟨hcompare, -⟩ := filter_agrees_with_expression documentTable "p" documentTable_addressed .integer
  obtain ⟨text, b, hb, hfilter, hexpr⟩ := hcompare .lessThan (.int 7) "lt_0" (by simp)
  have hsegments : pathSegments "doc.a.b" = ["doc", "a", "b"] := by decide
  rw [hsegments] at hb hexpr
  subst hb
  exact ⟨documentTable_addressed, text, hfilter, hexpr⟩

end ParamQuery
