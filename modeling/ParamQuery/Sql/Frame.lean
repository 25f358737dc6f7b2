/-
The clauses of one `SELECT` statement, each already SQL, and the stack of
statements that are being assembled. The innermost statement is the head of
the stack.
-/
import ParamQuery.Sql.Token

namespace ParamQuery.Sql

/-- The clauses of a statement that is being written, each as the fragments that
it has so far. -/
structure Frame (β : Type) where
  distinct : Bool := false
  select : Fragment β := []
  source : Fragment β := []
  joins : List (Fragment β) := []
  conditions : List (Fragment β) := []
  groupBy : List (Fragment β) := []
  orderBy : List (Fragment β) := []
  limit : Option String := none
  offset : Option Nat := none

namespace Frame

variable {β : Type}

/-- The conjunction of the conditions: each in parentheses, unless it is the
only one. -/
def whereClause : List (Fragment β) → Fragment β
  | [] => []
  | [only] => .text " WHERE " :: only
  | parts => .text " WHERE " :: Fragment.separated " AND " (parts.map Fragment.parenthesized)

/-- A clause that lists items, absent without items. -/
def listClause (keyword : String) (items : List (Fragment β)) : Fragment β :=
  if items.isEmpty then [] else .text keyword :: Fragment.separated ", " items

/-- The whole statement. -/
def statement (f : Frame β) : Fragment β :=
  Token.text "SELECT " :: (if f.distinct then [Token.text "DISTINCT "] else []) ++ f.select ++
    Token.text " FROM " :: f.source ++
    f.joins.flatMap (Token.text " " :: ·) ++
    whereClause f.conditions ++
    listClause " GROUP BY " f.groupBy ++
    listClause " ORDER BY " f.orderBy ++
    (match f.limit with
      | none => []
      | some n => [Token.text " LIMIT ", Token.text n]) ++
    (match f.offset with
      | none => []
      | some n => [Token.text " OFFSET ", Token.text (toString n)])

/-- The text of a statement whose slots hold their texts. -/
def render (f : Frame String) : String := Fragment.render f.statement

end Frame

/-! ## The stack of open statements -/

/-- The open statements, innermost first. -/
abbrev FrameStack := List (Frame String)

namespace FrameStack

/-- Open a statement inside the current one. -/
def push (s : FrameStack) : FrameStack := {} :: s

/-- Replace the current statement. -/
def replace? (s : FrameStack) (f : Frame String) : Option FrameStack :=
  match s with
  | [] => none
  | _ :: below => some (f :: below)

/-- Close statements as long as the stack has the given depth. The result is
the last one closed, or `last` if there is none. -/
def closeWhile (depth : Nat) (last : Option (Frame String)) :
    FrameStack → Option (Frame String) × FrameStack
  | [] => (last, [])
  | f :: below =>
    if depth ≤ below.length + 1 then closeWhile depth (some f) below else (last, f :: below)

/-- Close every statement from the given depth on. The result is the one at
that depth, the last one closed. -/
def closeFrom (depth : Nat) (s : FrameStack) : Option (Frame String) × FrameStack :=
  closeWhile depth none s

end FrameStack

/-- The number behind `LIMIT`; zero stands for no limit. -/
def limitText (n : Nat) : String := if n = 0 then "ALL" else toString n

end ParamQuery.Sql
