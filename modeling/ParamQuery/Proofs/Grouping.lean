/-
Reading back the text of an expression. The reader of the operator grammar finds
the operators of an expression where they are, up to the grouping of a chain of
one associative operator (`compile_grouping`). There is one exception: a right
operand that goes on with the operator of the whole is written without
parentheses, and if it begins with another operator of the same level, that one
is read as if it belonged to the left operand.
-/
import ParamQuery.Proofs.PlainPhrases

namespace ParamQuery

open Sql

/-- **Operators are read where they are.** The text of an expression is read as
its tree, with the texts of its leaves, up to the grouping of chains of one
associative operator. This is so if, and only if, in the tree no right operand
that goes on with the same associative operator begins with another operator of
its level. -/
theorem compile_grouping {e : Expr} {table : Table} {settings : Settings} {qualifier : Option String} {cmd : Command}
    (hplain : e.Plain) (hstem : IsIdentifier settings.stem) (hnames : ∀ n ∈ e.filterNames, IsIdentifier n)
    (h : e.compile table settings qualifier = .ok cmd) :
    ∃ (run : List (Slot × String)) (r : Registry) (t : Tree Head (Atom × List Word)) (read : ReadTree),
      Visits Slot.settle (.ofSettings settings) run r ∧ cmd.parameters = r.parameters ∧
      t.map id Prod.fst = e.tree ∧
      (∀ p ∈ t.leaves, p.1.ReadFrom (.ofSettings table settings qualifier) run p.2) ∧
      readExpression cmd.text = some read ∧
      (read.normal = (t.map Head.words Prod.snd).normal ↔ e.tree.unbroken) :=
  hplain.compile_reading rfl hstem hnames h

/-- A table without columns. -/
def plainTable : Table := { schema := none, name := "t", columns := ⟨[]⟩ }

/-- Tests of every kind beside one another. -/
def mixedTests : Expr :=
  .binary .orElse
    (.unary .not (.binary .notEqual (.member none ["a"] .integer) (.constant .null)))
    (.binary .andAlso
      (.binary .lessThan
        (.binary .subtract (.constant (.int 1)) (.binary .subtract (.constant (.int 2)) (.constant (.int 3))))
        (.conditional
          (.subquery ⟨⟨"", [], none, none⟩, none, [], [], [.compare "a" .equal ⟨"eq", .int 4⟩], [], [], none, none,
            false, false⟩)
          (.conditional (.constant (.bool true)) (.constant (.int 5)) (.constant (.int 6)))
          (.call .length (some (.member none ["d"] .text)) [])))
      (.binary .equal (.binary .add (.member none ["d", "k", "l"] .text) (.constant (.string "x")))
        (.constant (.string "y"))))

theorem mixedTests_plain : mixedTests.Plain := by
  have hmember : ∀ path type, (Expr.member none path type).Plain := fun path type => .member path type (by simp)
  have hlength : (Expr.call .length (some (.member none ["d"] .text)) []).Plain :=
    .call rfl rfl (by simpa using hmember ["d"] .text) (by simp)
  exact .binary .orElse (.not (.binary .notEqual (hmember _ _) (.constant _)))
    (.binary .andAlso
      (.binary .lessThan (.binary .subtract (.constant _) (.binary .subtract (.constant _) (.constant _)))
        (.conditional (.subquery _) (.conditional (.constant _) (.constant _) (.constant _)) hlength))
      (.binary .equal (.binary .add (hmember _ _) (.constant _)) (.constant _)))

theorem mixedTests_text : (mixedTests.compile plainTable {} none).toOption.map (·.text) =
    some ("NOT (\"t\".\"a\" IS NOT NULL) OR @p0 - (@p1 - @p2) < CASE WHEN " ++
      "((SELECT \"t\".* FROM \"t\" WHERE \"t\".\"a\" = @eq)) AND (@p3) THEN @p4 WHEN " ++
      "(SELECT \"t\".* FROM \"t\" WHERE \"t\".\"a\" = @eq) THEN @p5 ELSE LENGTH(\"t\".\"d\") END AND " ++
      "\"t\".\"d\"->'k'->>'l' || @p6 = @p7") := by
  decide +kernel

theorem mixedTests_grouping :
    mixedTests.Plain ∧ mixedTests.tree.unbroken ∧
      ∃ (cmd : Command) (t : Tree Head (Atom × List Word)) (read : ReadTree),
        mixedTests.compile plainTable {} none = .ok cmd ∧ t.map id Prod.fst = mixedTests.tree ∧
        readExpression cmd.text = some read ∧ read.normal = (t.map Head.words Prod.snd).normal := by
  have htext := mixedTests_text
  cases hc : mixedTests.compile plainTable {} none with
  | error e =>
    rw [hc] at htext
    cases htext
  | ok cmd =>
    obtain ⟨-, -, t, read, -, -, htree, -, hread, hnormal⟩ :=
      compile_grouping mixedTests_plain (by decide) (by decide) hc
    have hunbroken : mixedTests.tree.unbroken := by decide
    exact ⟨mixedTests_plain, hunbroken, cmd, t, read, rfl, htree, hread, hnormal.2 hunbroken⟩

/-- A product on the right of which there is another one, of a quotient. -/
def brokenChain : Expr :=
  .binary .multiply (.constant (.int 2))
    (.binary .multiply (.binary .divide (.constant (.int 3)) (.constant (.int 2))) (.constant (.int 1)))

theorem brokenChain_text : (brokenChain.compile plainTable {} none).toOption.map (·.text) =
    some "@p0 * @p1 / @p2 * @p3" := by
  decide +kernel

/-- The quotient is taken of the product in front of it. -/
theorem brokenChain_regrouped :
    brokenChain.Plain ∧ ∃ (cmd : Command) (read : ReadTree), brokenChain.compile plainTable {} none = .ok cmd ∧
      cmd.text = "@p0 * @p1 / @p2 * @p3" ∧ readExpression cmd.text = some read ∧
      ∀ t : Tree Head (Atom × List Word), t.map id Prod.fst = brokenChain.tree →
        read.normal ≠ (t.map Head.words Prod.snd).normal := by
  have htext := brokenChain_text
  cases hc : brokenChain.compile plainTable {} none with
  | error e =>
    rw [hc] at htext
    cases htext
  | ok cmd =>
    rw [hc] at htext
    have htext : cmd.text = "@p0 * @p1 / @p2 * @p3" := Option.some.inj htext
    have hread : readExpression "@p0 * @p1 / @p2 * @p3" =
        some (.operation (.binary (.operator .multiply))
          (.operation (.binary (.operator .divide))
            (.operation (.binary (.operator .multiply)) (.leaf [.parameter '@' "p0"]) (.leaf [.parameter '@' "p1"]))
            (.leaf [.parameter '@' "p2"]))
          (.leaf [.parameter '@' "p3"])) := by
      rfl
    refine ⟨.binary _ (.constant _) (.binary _ (.binary _ (.constant _) (.constant _)) (.constant _)), cmd, _, rfl,
      htext, htext ▸ hread, fun t ht => ?_⟩
    obtain ⟨a, b, rfl, -, hb⟩ := Tree.eq_operation_of_map id Prod.fst ht
    obtain ⟨b, e, rfl, hb, he⟩ := Tree.eq_operation_of_map id Prod.fst hb
    obtain ⟨c, d, rfl, -, hd⟩ := Tree.eq_operation_of_map id Prod.fst hb
    -- the last two factors are leaves, so the normal form is that of the tree
    cases d with
    | operation | negation | nullTest | paren | group => cases hd
    | leaf d =>
      cases e with
      | operation | negation | nullTest | paren | group => cases he
      | leaf e =>
        intro hnormal
        cases hnormal

end ParamQuery
