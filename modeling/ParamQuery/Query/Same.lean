/-
Equality of query trees: the same shape, with literals compared by value, so
that the two zeros are one.
-/
import ParamQuery.Query.Expr

namespace ParamQuery

mutual
/-- Whether two expressions are the same, their constants by value. -/
def Expr.same : Expr → Expr → Bool
  | .source s, .source t => s.same t
  | .subquery p, .subquery q => p.same q
  | .binary o l r, .binary p m s => o == p && l.same m && r.same s
  | .conditional t a b, .conditional u c d => t.same u && a.same c && b.same d
  | .constant v, .constant w => v.sameValue w
  | .member r p t, .member s q u => sameRoot r s && p == q && t == u
  | .call m r as, .call n s bs => m == n && sameOption r s && sameList as bs
  | .project as, .project bs => sameList as bs
  | .unary o e, .unary p f => o == p && e.same f
  | _, _ => false
/-- The same two keys. -/
def GroupJoin.same : GroupJoin → GroupJoin → Bool
  | ⟨o, i⟩, ⟨p, j⟩ => o.same p && i.same j
/-- The same source, name by name. -/
def Source.same : Source → Source → Bool
  | ⟨n, ms, t, g⟩, ⟨n', ms', t', g'⟩ => n == n' && ms == ms' && t == t' && sameGroup g g'
/-- The same join. -/
def Join.same : Join → Join → Bool
  | ⟨k, t, o, i⟩, ⟨k', t', o', i'⟩ => k == k' && t == t' && o.same o' && i.same i'
/-- The same key in the same direction. -/
def SortKey.same : SortKey → SortKey → Bool
  | ⟨e, d⟩, ⟨e', d'⟩ => e.same e' && d == d'
/-- The same clauses, one by one. -/
def Query.same : Query → Query → Bool
  | ⟨s, sel, js, cs, fs, gs, os, lim, off, dis, cnt⟩,
    ⟨s', sel', js', cs', fs', gs', os', lim', off', dis', cnt'⟩ =>
    s.same s' && sameOption sel sel' && sameJoins js js' && sameList cs cs' &&
      Filter.sameItems fs fs' && sameList gs gs' && sameSortKeys os os' && lim == lim' &&
      off == off' && dis == dis' && cnt == cnt'
/-- The same group join, or none on both sides. -/
def sameGroup : Option GroupJoin → Option GroupJoin → Bool
  | none, none => true
  | some g, some h => g.same h
  | _, _ => false
/-- The same source, or none on both sides. -/
def sameRoot : Option Source → Option Source → Bool
  | none, none => true
  | some s, some t => s.same t
  | _, _ => false
/-- The same expression, or none on both sides. -/
def sameOption : Option Expr → Option Expr → Bool
  | none, none => true
  | some e, some f => e.same f
  | _, _ => false
/-- Expressions that are the same one by one. -/
def sameList : List Expr → List Expr → Bool
  | [], [] => true
  | e :: es, f :: fs => e.same f && sameList es fs
  | _, _ => false
/-- Joins that are the same one by one. -/
def sameJoins : List Join → List Join → Bool
  | [], [] => true
  | j :: js, k :: ks => j.same k && sameJoins js ks
  | _, _ => false
/-- Sort keys that are the same one by one. -/
def sameSortKeys : List SortKey → List SortKey → Bool
  | [], [] => true
  | k :: ks, l :: ls => k.same l && sameSortKeys ks ls
  | _, _ => false
end

end ParamQuery
