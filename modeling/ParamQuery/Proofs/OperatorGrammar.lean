/-
Reading SQL expressions. `words` joins letters, and signs, into words. The
reader takes them one by one, as a parser with a stack does: an operator first
completes the operations in front of it that bind at least as strongly
(`reduce`), and a statement in parentheses is one operand whatever is in it. How
strongly an operator binds, and whether it can follow another one, is said by a
table of operators.

There are two tables: the levels, by which parentheses are placed
(`readExpression`), and the ranks of PostgreSQL, which tell comparisons, patterns
and null tests apart (`readPhrase`).
-/
import ParamQuery.Proofs.Nesting
import ParamQuery.Proofs.OperatorTrees

namespace ParamQuery.Sql

/-! ## Words -/

/-- The words of SQL. -/
inductive Word where
  /-- A run of letters, a run of signs, or a punctuation mark. -/
  | plain (s : String)
  | quoted (quote : Char) (content : String)
  | parameter (sigil : Char) (name : String)
deriving DecidableEq

/-- The characters that operators are made of. -/
def isOperatorSign (c : Char) : Bool := "+-*/<>=~!@#%^&|?".toList.contains c

/-- Whether a lexeme is a character that names are made of. -/
def Lexeme.isLetter : Lexeme → Bool
  | .char c => Lexer.isIdentifier c
  | _ => false

/-- Whether a lexeme is a character that operators are made of. -/
def Lexeme.isOperatorSign : Lexeme → Bool
  | .char c => Sql.isOperatorSign c
  | _ => false

/-- Whether two lexemes belong to one word. -/
def Lexeme.joins (x y : Lexeme) : Bool := x.isLetter && y.isLetter || x.isOperatorSign && y.isOperatorSign

/-- A lexeme on its own. -/
def Lexeme.words : Lexeme → List Word
  | .char c => if c = ' ' then [] else [.plain (String.ofList [c])]
  | .quoted quote content => [.quoted quote content]
  | .parameter sigil name => [.parameter sigil name]

/-- A lexeme in front of the word that it belongs to. -/
def Lexeme.prolong : Lexeme → List Word → List Word
  | .char c, .plain s :: ws => .plain (String.ofList (c :: s.toList)) :: ws
  | x, ws => x.words ++ ws

/-- The words of lexemes. -/
def words : List Lexeme → List Word
  | [] => []
  | x :: l => if l.head?.any x.joins then x.prolong (words l) else x.words ++ words l

theorem words_cons_cons (x y : Lexeme) (l : List Lexeme) :
    words (x :: y :: l) = if x.joins y then x.prolong (words (y :: l)) else x.words ++ words (y :: l) := rfl

theorem Lexeme.words_char {c : Char} (h : c ≠ ' ') : (Lexeme.char c).words = [.plain (String.ofList [c])] := if_neg h

/-- A character in front of words begins the first of them. -/
theorem Lexeme.prolong_char {c : Char} (h : c ≠ ' ') (ws : List Word) :
    ∃ s rest, (Lexeme.char c).prolong ws = .plain s :: rest ∧ s.toList.head? = some c := by
  cases ws with
  | nil => exact ⟨String.ofList [c], [], by simp [Lexeme.prolong, Lexeme.words_char h], by simp⟩
  | cons w ws =>
    cases w with
    | plain s => exact ⟨String.ofList (c :: s.toList), ws, rfl, by simp⟩
    | quoted quote content =>
      exact ⟨String.ofList [c], .quoted quote content :: ws, by simp [Lexeme.prolong, Lexeme.words_char h], by simp⟩
    | parameter sigil name =>
      exact ⟨String.ofList [c], .parameter sigil name :: ws, by simp [Lexeme.prolong, Lexeme.words_char h], by simp⟩

/-- The first word behind a lexeme that belongs to it. -/
theorem words_of_joins {x y : Lexeme} (h : x.joins y) (l : List Lexeme) :
    ∃ c d s ws, x = .char c ∧ y = .char d ∧ words (y :: l) = .plain s :: ws ∧ s.toList.head? = some d := by
  cases x with
  | quoted quote content | parameter sigil name => cases h
  | char c =>
    cases y with
    | quoted quote content | parameter sigil name =>
      simp [Lexeme.joins, Lexeme.isLetter, Lexeme.isOperatorSign] at h
    | char d =>
      have hblank : d ≠ ' ' := by
        rintro rfl
        simp [Lexeme.joins, Lexeme.isLetter, Lexeme.isOperatorSign, Lexer.isIdentifier, isOperatorSign] at h
      rw [words]
      split
      · obtain ⟨s, ws, hws, hs⟩ := Lexeme.prolong_char hblank (words l)
        exact ⟨c, d, s, ws, rfl, rfl, hws, hs⟩
      · refine ⟨c, d, String.ofList [d], words l, rfl, rfl, ?_, by simp⟩
        rw [Lexeme.words_char hblank]
        rfl

/-- Words end where the next lexeme does not belong to the last one. -/
theorem words_append {l l' : List Lexeme} (h : ∀ x ∈ l.getLast?, ∀ y ∈ l'.head?, x.joins y = false) :
    words (l ++ l') = words l ++ words l' := by
  induction l with
  | nil => rfl
  | cons x l ih =>
    cases l with
    | nil =>
      have hapart : l'.head?.any x.joins = false := by
        cases hl : l'.head? with
        | none => rfl
        | some y => simpa using h x (by simp) y (by simp [hl])
      rw [List.singleton_append, words, hapart]
      simp [words]
    | cons y l =>
      have ih := ih (by simpa using h)
      rw [List.cons_append] at ih
      rw [List.cons_append, List.cons_append, words_cons_cons, words_cons_cons, ih]
      by_cases hjoins : x.joins y
      · obtain ⟨c, d, s, ws, rfl, rfl, hwords, -⟩ := words_of_joins hjoins l
        rw [if_pos hjoins, if_pos hjoins, hwords]
        rfl
      · rw [if_neg hjoins, if_neg hjoins, List.append_assoc]

/-- The depth behind a word. -/
def Word.nest (depth : Nat) : Word → Option Nat
  | .plain s => if s = "(" then some (depth + 1) else if s = ")" then if depth = 0 then none else some (depth - 1)
      else some depth
  | _ => some depth

theorem Word.nest_eq_none {depth : Nat} {w : Word} (h : Word.nest depth w = none) : w = .plain ")" ∧ depth = 0 := by
  cases w with
  | plain s =>
    simp only [Word.nest] at h
    split at h
    · cases h
    split at h
    · rename_i hs
      split at h
      · rename_i hzero
        exact ⟨by rw [hs], hzero⟩
      · cases h
    · cases h
  | quoted | parameter => cases h

/-- Words have the parentheses of their lexemes. -/
theorem foldlM_nest_words (l : List Lexeme) (depth : Nat) : (words l).foldlM Word.nest depth = nesting depth l := by
  have hplain : ∀ {s : String} {c : Char}, s.toList.head? = some c → Lexer.isIdentifier c ∨ isOperatorSign c →
      ∀ depth, Word.nest depth (.plain s) = some depth := by
    intro s c hs hc depth
    have hne : s ≠ "(" ∧ s ≠ ")" := by
      constructor <;> (rintro rfl; cases Option.some.inj hs; exact absurd hc (by decide))
    rw [Word.nest, if_neg hne.1, if_neg hne.2]
  induction l generalizing depth with
  | nil => rfl
  | cons x l ih =>
    rw [words, nesting_cons]
    split
    · -- a word that goes on has no parentheses
      rename_i hjoins
      obtain ⟨y, hy, hxy⟩ := (Option.any_eq_true _ _).1 hjoins
      obtain ⟨l, rfl⟩ : ∃ l', l = y :: l' := ⟨l.tail, List.eq_cons_of_mem_head? hy⟩
      obtain ⟨c, d, s, ws, rfl, rfl, hwords, hs⟩ := words_of_joins hxy l
      have hkinds : Lexer.isIdentifier c ∧ Lexer.isIdentifier d ∨ isOperatorSign c ∧ isOperatorSign d := by
        simpa [Lexeme.joins, Lexeme.isLetter, Lexeme.isOperatorSign] using hxy
      have hc : Lexer.isIdentifier c ∨ isOperatorSign c := hkinds.imp And.left And.left
      have hd : Lexer.isIdentifier d ∨ isOperatorSign d := hkinds.imp And.right And.right
      have hlexeme : nestLexeme depth (.char c) = some depth := by
        have hne : c ≠ '(' ∧ c ≠ ')' := by
          constructor <;> (rintro rfl; exact absurd hc (by decide))
        rw [nestLexeme, if_neg hne.1, if_neg hne.2]
      rw [hlexeme, Option.bind_some, ← ih, hwords, Lexeme.prolong, List.foldlM_cons, List.foldlM_cons,
        hplain hs hd, hplain (c := c) (by simp) hc]
    · rw [List.foldlM_append]
      have hx : x.words.foldlM Word.nest depth = nestLexeme depth x := by
        cases x with
        | quoted quote content | parameter sigil name => rfl
        | char c =>
          by_cases hblank : c = ' '
          · subst hblank
            rfl
          · have hsingle : ∀ d : Char, String.ofList [c] = String.ofList [d] ↔ c = d := by
              intro d
              rw [String.ofList_inj, List.cons.injEq]
              simp
            have hopen := hsingle '('
            have hclose := hsingle ')'
            simp only [Lexeme.words, hblank, if_false, List.foldlM_cons, List.foldlM_nil, Word.nest, nestLexeme]
            rw [show ("(" : String) = String.ofList ['('] from rfl, show (")" : String) = String.ofList [')'] from rfl]
            simp only [hopen, hclose]
            exact bind_pure _
      rw [hx]
      exact congrArg _ (funext fun d => ih d)

/-! ## Operators in words -/

namespace Operator

/-- What the operator is written as. -/
def symbol : Operator → String
  | .binary (.operator op) => op.symbol
  | .binary .concat => "||"
  | .arrow false => "->"
  | .arrow true => "->>"
  | .like => "LIKE"

/-- All operators. -/
def all : List Operator :=
  BinaryOp.all.map (fun op => .binary (.operator op)) ++ [.binary .concat, .arrow false, .arrow true, .like]

/-- The operator that is written so. -/
def ofSymbol? (s : String) : Option Operator := all.find? (·.symbol == s)

theorem ofSymbol?_symbol (o : Operator) : ofSymbol? o.symbol = some o := by
  rcases o with ⟨⟨op⟩ | _⟩ | ⟨⟨⟩⟩ | _
  · cases op <;> decide
  · decide
  · decide
  · decide
  · decide

/-- How strongly an operator binds in PostgreSQL. -/
def rank : Operator → Nat
  | .binary (.operator .orElse) => 1
  | .binary (.operator .andAlso) => 2
  | .binary (.operator .equal) | .binary (.operator .notEqual) | .binary (.operator .greaterThan)
  | .binary (.operator .greaterThanOrEqual) | .binary (.operator .lessThan)
  | .binary (.operator .lessThanOrEqual) => 5
  | .like => 6
  | .binary (.operator .and) | .binary (.operator .or) | .binary (.operator .exclusiveOr)
  | .binary (.operator .leftShift) | .binary (.operator .rightShift) | .binary .concat | .arrow _ => 7
  | .binary (.operator .add) | .binary (.operator .subtract) => 8
  | .binary (.operator .multiply) | .binary (.operator .divide) | .binary (.operator .modulo) => 9

theorem rank_lt_ten (op : Operator) : op.rank < 10 := by
  rcases op with ⟨⟨op⟩ | _⟩ | _ | _
  · cases op <;> decide
  · decide
  · exact Nat.lt_of_sub_eq_succ rfl
  · decide

end Operator

/-- The table of ranks: null tests bind less than comparisons, and patterns more;
neither comparisons nor patterns are chained. -/
def Precedence.ranks : Precedence where
  operator := Operator.rank
  negation := 3
  nullTest := 4
  atom := 10
  chains rank := rank != 5 && rank != 6
  operator_lt_atom := Operator.rank_lt_ten
  negation_lt_atom := by decide
  nullTest_lt_atom := by decide
  chains_zero := rfl

/-! ## What waits for an operand -/

/-- Whether what has the given edge is complete in front of something that binds
with the given strength. -/
def Precedence.StopsAt (T : Precedence) (strength edge : Nat) : Prop :=
  strength ≤ edge ∧ (T.chains strength = false → strength < edge)

instance (T : Precedence) (strength edge : Nat) : Decidable (T.StopsAt strength edge) :=
  inferInstanceAs (Decidable (_ ∧ _))

section Pending

variable {κ α : Type} {T : Precedence}

theorem stopsAt_zero (edge : Nat) : T.StopsAt 0 edge :=
  ⟨Nat.zero_le _, fun h => by rw [T.chains_zero] at h; cases h⟩

theorem stopsAt_min {strength a b : Nat} :
    T.StopsAt strength (min a b) ↔ T.StopsAt strength a ∧ T.StopsAt strength b := by
  simp only [Precedence.StopsAt, le_min_iff, lt_min_iff, imp_and]
  exact and_and_and_comm

theorem stopsAt_of_lt {strength edge : Nat} (h : strength < edge) : T.StopsAt strength edge := ⟨h.le, fun _ => h⟩

theorem stopsAt_of_chains {strength edge : Nat} (h : T.chains strength) :
    T.StopsAt strength edge ↔ strength ≤ edge := by
  simp [Precedence.StopsAt, h]

theorem stopsAt_of_not_chains {strength edge : Nat} (h : T.chains strength = false) :
    T.StopsAt strength edge ↔ strength < edge := ⟨fun hstops => hstops.2 h, stopsAt_of_lt⟩

/-- What stands in front of an operand. -/
inductive Item (κ α : Type) where
  | left (t : Tree κ α) (op : Operator)
  | negation

/-- How strongly an item binds to its operand. -/
def Item.strength (T : Precedence) : Item κ α → Nat
  | .left _ op => T.operator op
  | .negation => T.negation

/-- The tree that an item makes of its operand. -/
def Item.around : Item κ α → Tree κ α → Tree κ α
  | .left t op, x => .operation op t x
  | .negation, x => .negation x

theorem Item.strength_lt_atom (item : Item κ α) : item.strength T < T.atom := by
  cases item with
  | left t op => exact T.operator_lt_atom op
  | negation => exact T.negation_lt_atom

/-- Complete the operations that bind at least as strongly as what comes next,
`none` where two of them cannot follow one another. -/
def reduce (T : Precedence) (strength : Nat) :
    List (Item κ α) → Tree κ α → Option (List (Item κ α) × Tree κ α)
  | [], x => some ([], x)
  | item :: items, x =>
    if item.strength T < strength then some (item :: items, x)
    else if item.strength T = strength ∧ T.chains strength = false then none
    else reduce T strength items (item.around x)

/-- Complete all operations. -/
def complete : List (Item κ α) → Tree κ α → Tree κ α
  | [], x => x
  | item :: items, x => complete items (item.around x)

/-- An operation that is complete in front of what comes next is completed. -/
theorem reduce_cons {strength : Nat} {item : Item κ α} (h : T.StopsAt strength (item.strength T))
    (items : List (Item κ α)) (x : Tree κ α) :
    reduce T strength (item :: items) x = reduce T strength items (item.around x) := by
  have hchain : ¬(item.strength T = strength ∧ T.chains strength = false) := by
    rintro ⟨heq, hchains⟩
    exact absurd heq (h.2 hchains).ne'
  rw [reduce, if_neg (Nat.not_lt.2 h.1), if_neg hchain]

theorem reduce_zero (items : List (Item κ α)) (x : Tree κ α) : reduce T 0 items x = some ([], complete items x) := by
  induction items generalizing x with
  | nil => rfl
  | cons item items ih =>
    rw [reduce_cons (stopsAt_zero _)]
    exact ih _

/-- What waits last binds less than the given edge. -/
def Beneath (T : Precedence) (edge : Nat) (items : List (Item κ α)) : Prop :=
  ∀ item ∈ items.head?, item.strength T < edge

theorem beneath_nil (edge : Nat) : Beneath T edge ([] : List (Item κ α)) := nofun

theorem beneath_atom (items : List (Item κ α)) : Beneath T T.atom items := fun item _ => item.strength_lt_atom

theorem beneath_min {a b : Nat} {items : List (Item κ α)} :
    Beneath T (min a b) items ↔ Beneath T a items ∧ Beneath T b items := by
  simp only [Beneath, lt_min_iff, forall_and]

/-- What binds more strongly than all that waits completes nothing. -/
theorem reduce_of_beneath {strength : Nat} {items : List (Item κ α)} (h : Beneath T strength items) (x : Tree κ α) :
    reduce T strength items x = some (items, x) := by
  cases items with
  | nil => rfl
  | cons item items => exact if_pos (h item rfl)

end Pending

/-! ## The reader -/

/-- Trees as they are read: the keywords around the parts of a call are words,
and so are the leaves. -/
abbrev ReadTree := Tree (List (List Word)) (List Word)

/-- What waits for an operand that is being read. -/
abbrev Pending := List (Item (List (List Word)) (List Word))

/-- A bracket that is open. -/
inductive Bracket where
  | paren
  /-- A call or a `CASE`, with the word that ends it and what has been read of
  its keywords and parts. -/
  | group (closer : String) (head : List (List Word)) (parts : List ReadTree)

/-- What has been read last. -/
inductive Focus where
  /-- Nothing yet: an operand is expected. -/
  | start
  | operand (t : ReadTree)
  /-- The name of a table and a dot. -/
  | qualifier (ws : List Word)
  /-- The name of a function, or a number. -/
  | callee (name : String)
  /-- `IS` or `IS NOT` behind an operand. -/
  | test (t : ReadTree) (negated : Bool)
  /-- A statement in parentheses, up to some place inside it. -/
  | statement (depth : Nat) (ws : List Word)

/-- The state of the reader between two words. -/
structure Reader where
  /-- The open brackets, each with what waits in front of it. -/
  outer : List (Bracket × Pending)
  pending : Pending
  focus : Focus

/-- The keywords inside calls and `CASE`. -/
def isKeyword (s : String) : Bool := [",", "WHEN", "THEN", "ELSE", "both", "leading", "trailing", "from"].contains s

/-- Whether a word is a keyword inside calls and `CASE`. -/
def Word.isKeyword : Word → Bool
  | .plain s => Sql.isKeyword s
  | _ => false

/-- The words that are taken for a name where an operand is expected. -/
def isName (s : String) : Bool :=
  !(["NOT", "(", "CASE", "SELECT"].contains s || isKeyword s) && s.toList.all Lexer.isIdentifier

/-- The digits of a number. -/
def isNumber (s : String) : Bool := !s.toList.isEmpty && s.toList.all Char.isDigit

/-- The keywords behind a part of a call or a `CASE`. -/
def isPartKeyword (s : String) : Bool := isKeyword s || s == "FROM" || s == "FOR"

/-- What can be an operand as it stands. -/
def Focus.operand? : Focus → Option ReadTree
  | .operand t => some t
  | .callee name => if isNumber name then some (.leaf [.plain name]) else none
  | _ => none

/-- A word behind the last keyword. -/
def extendLast (w : Word) : List (List Word) → List (List Word)
  | [] => [[w]]
  | [ws] => [ws ++ [w]]
  | ws :: rest => ws :: extendLast w rest

namespace Reader

/-- A word where an operand is expected. -/
def begins (r : Reader) (s : String) : Option Reader :=
  if s = "NOT" then some { r with pending := .negation :: r.pending }
  else if s = "(" then some ⟨(.paren, r.pending) :: r.outer, [], .start⟩
  else if s = "CASE" then some ⟨(.group "END" [[.plain "CASE"]] [], r.pending) :: r.outer, [], .start⟩
  else if s = "SELECT" then
    match r.outer, r.pending with
    | (.paren, waiting) :: outer, [] => some ⟨outer, waiting, .statement 0 [.plain "(", .plain "SELECT"]⟩
    | _, _ => none
  else if isKeyword s then
    match r.outer, r.pending with
    | (.group closer head parts, waiting) :: outer, [] =>
      some ⟨(.group closer (extendLast (.plain s) head) parts, waiting) :: outer, [], .start⟩
    | _, _ => none
  else if s.toList.all Lexer.isIdentifier then some { r with focus := .callee s }
  else none

/-- The end of a bracket, or of one of its parts. -/
def ends (r : Reader) (t : ReadTree) (s : String) : Option Reader :=
  match r.outer with
  | [] => none
  | (.paren, waiting) :: outer =>
    if s = ")" then some ⟨outer, waiting, .operand (.paren (complete r.pending t))⟩ else none
  | (.group closer head parts, waiting) :: outer =>
    if s = closer then
      some ⟨outer, waiting, .operand (.group (head ++ [[.plain s]]) (parts ++ [complete r.pending t]))⟩
    else if isPartKeyword s then
      some ⟨(.group closer (head ++ [[.plain s]]) (parts ++ [complete r.pending t]), waiting) :: outer, [], .start⟩
    else none

/-- A word behind an operand. -/
def continues (T : Precedence) (r : Reader) (t : ReadTree) (s : String) : Option Reader :=
  match Operator.ofSymbol? s with
  | some op => (reduce T (T.operator op) r.pending t).map fun p => ⟨r.outer, .left p.2 op :: p.1, .start⟩
  | none =>
    if s = "IS" then (reduce T T.nullTest r.pending t).map fun p => ⟨r.outer, p.1, .test p.2 false⟩
    else if s = "." then
      match t with
      | .leaf ws => some { r with focus := .qualifier ws }
      | _ => none
    else r.ends t s

/-- A word inside a statement, which goes on to the parenthesis that ends it. -/
def passes (r : Reader) (depth : Nat) (ws : List Word) (w : Word) : Reader :=
  match Word.nest depth w with
  | some depth => { r with focus := .statement depth (ws ++ [w]) }
  | none => { r with focus := .operand (.leaf (ws ++ [w])) }

/-- One word. -/
def step (T : Precedence) (r : Reader) (w : Word) : Option Reader :=
  match r.focus, w with
  | .start, .plain s => r.begins s
  | .start, w => some { r with focus := .operand (.leaf [w]) }
  | .operand t, .plain s => r.continues T t s
  | .qualifier ws, .quoted quote content =>
    some { r with focus := .operand (.leaf (ws ++ [.plain ".", .quoted quote content])) }
  | .callee name, .plain s =>
    if s = "(" then some ⟨(.group ")" [[.plain name, .plain "("]] [], r.pending) :: r.outer, [], .start⟩
    else if isNumber name then r.continues T (.leaf [.plain name]) s
    else none
  | .test t negated, .plain s =>
    if s = "NULL" then some { r with focus := .operand (.nullTest t negated) }
    else if s = "NOT" ∧ negated = false then some { r with focus := .test t true }
    else none
  | .statement depth ws, w => some (r.passes depth ws w)
  | _, _ => none

/-- One word after another. -/
def run (T : Precedence) (r : Reader) (ws : List Word) : Option Reader := ws.foldlM (step T) r

variable {T : Precedence}

theorem run_append (r : Reader) (ws ws' : List Word) :
    r.run T (ws ++ ws') = (r.run T ws).bind fun r => r.run T ws' := List.foldlM_append

theorem run_cons (r : Reader) (w : Word) (ws : List Word) :
    r.run T (w :: ws) = (r.step T w).bind fun r => r.run T ws := rfl

theorem run_concat (r : Reader) (ws : List Word) (w : Word) :
    r.run T (ws ++ [w]) = (r.run T ws).bind fun r => r.step T w := by
  rw [run_append]
  exact congrArg _ (funext fun r => bind_pure _)

/-- Behind an operand a number is like any other one. -/
theorem step_of_operand? {outer : List (Bracket × Pending)} {items : Pending} {f : Focus} {t : ReadTree}
    (h : f.operand? = some t) {s : String} (hs : s ≠ "(") :
    Reader.step T ⟨outer, items, f⟩ (.plain s) = Reader.continues T ⟨outer, items, .start⟩ t s := by
  cases f with
  | operand t' =>
    cases h
    rfl
  | callee name =>
    simp only [Focus.operand?] at h
    split at h
    · rename_i hnumber
      cases h
      show (if s = "(" then _ else if isNumber name then _ else _) = _
      rw [if_neg hs, if_pos hnumber]
      rfl
    · cases h
  | start | qualifier | test | statement => cases h

end Reader

/-- The tree that words are read as, if they are one. -/
def readWords (T : Precedence) (ws : List Word) : Option ReadTree :=
  match Reader.run T ⟨[], [], .start⟩ ws with
  | some ⟨[], items, f⟩ => f.operand?.map (complete items)
  | _ => none

/-- The tree that a text is read as, if it is one. -/
def readTree (T : Precedence) (text : String) : Option ReadTree := (lex text).bind fun l => readWords T (words l)

/-- The phrase that a text is read as by the ranks of its operators, if it is
one. -/
def readPhrase (text : String) : Option ReadTree := readTree .ranks text

/-- The expression that a text is read as by the levels of its operators, if it is
one. Its parentheses have been used up. -/
def readExpression (text : String) : Option ReadTree := (readTree .levels text).map Tree.strip

end ParamQuery.Sql
