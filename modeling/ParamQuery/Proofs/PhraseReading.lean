/-
Reading phrases. Reading is the inverse of writing: a tree is read from words if,
and only if, it is a phrase and the words are its words (`readWords_iff`). So no
text is read in two ways, whatever the table of operators is.

That phrases are read goes by induction over the phrase. That only phrases are
read goes step by step: at any place the words read so far are those of what the
reader holds, and what it holds is made of phrases (`Reader.Holds`).
-/
import ParamQuery.Proofs.PhraseGrammar

namespace ParamQuery.Sql

variable {T : Precedence}

/-! ## Phrases are read -/

/-- A name where an operand is expected. -/
theorem Reader.begins_name {s : String} (h : isName s) (r : Reader) :
    r.begins s = some { r with focus := .callee s } := by
  simp only [isName, Bool.and_eq_true, Bool.not_eq_true', Bool.or_eq_false_iff, List.contains_eq_mem,
    List.mem_cons, List.not_mem_nil, or_false, decide_eq_false_iff_not, not_or] at h
  obtain ⟨⟨⟨hnot, hparen, hcase, hselect⟩, hkeyword⟩, hall⟩ := h
  simp [Reader.begins, hnot, hparen, hcase, hselect, hkeyword, hall]

theorem isName_of_isNumber {s : String} (h : isNumber s) : isName s := by
  have hreserved : ∀ s ∈ ["NOT", "(", "CASE", "SELECT"], isNumber s = false := by decide
  have hkeywords : ∀ s ∈ [",", "WHEN", "THEN", "ELSE", "both", "leading", "trailing", "from"], isNumber s = false := by
    decide
  have hne : (["NOT", "(", "CASE", "SELECT"].contains s || isKeyword s) = false := by
    rw [Bool.or_eq_false_iff, isKeyword, List.contains_eq_mem, List.contains_eq_mem, decide_eq_false_iff_not,
      decide_eq_false_iff_not]
    constructor <;> intro hs
    · exact absurd h (by simp [hreserved s hs])
    · exact absurd h (by simp [hkeywords s hs])
  rw [isNumber, Bool.and_eq_true, List.all_eq_true] at h
  rw [isName, hne, Bool.and_eq_true, List.all_eq_true]
  refine ⟨rfl, fun c hc => ?_⟩
  simp [Lexer.isIdentifier, Char.isAlphanum, h.2 c hc]

/-- The words that end a part of a bracket. -/
theorem continues_eq_ends {s : String} (h : isPartKeyword s ∨ s = "END" ∨ s = ")") :
    s ≠ "(" ∧ ∀ (r : Reader) (t : ReadTree), r.continues T t s = r.ends t s := by
  have hs : s ∈ [",", "WHEN", "THEN", "ELSE", "both", "leading", "trailing", "from", "FROM", "FOR", "END", ")"] := by
    simpa [isPartKeyword, isKeyword, or_assoc] using h
  have hwords : ∀ s ∈ [",", "WHEN", "THEN", "ELSE", "both", "leading", "trailing", "from", "FROM", "FOR", "END", ")"],
      s ≠ "(" ∧ Operator.ofSymbol? s = none ∧ s ≠ "IS" ∧ s ≠ "." := by decide
  obtain ⟨hparen, hsymbol, his, hdot⟩ := hwords s hs
  exact ⟨hparen, fun r t => by simp [Reader.continues, hsymbol, his, hdot]⟩

theorem Operator.symbol_ne_paren (op : Operator) : op.symbol ≠ "(" := by
  rcases op with ⟨⟨op⟩ | _⟩ | ⟨⟨⟩⟩ | _
  · cases op <;> decide
  · decide
  · decide
  · decide
  · decide

section Step

variable {outer : List (Bracket × Pending)} {items rest : Pending} {f : Focus} {x y : ReadTree}

theorem step_operator {op : Operator} (hf : f.operand? = some x)
    (h : reduce T (T.operator op) items x = some (rest, y)) :
    Reader.step T ⟨outer, items, f⟩ (.plain op.symbol) = some ⟨outer, .left y op :: rest, .start⟩ := by
  rw [Reader.step_of_operand? hf op.symbol_ne_paren]
  simp [Reader.continues, Operator.ofSymbol?_symbol, h]

/-- The words of a null test behind what is tested. -/
theorem run_nullTest (negated : Bool) (hf : f.operand? = some x)
    (h : reduce T T.nullTest items x = some (rest, y)) :
    Reader.run T ⟨outer, items, f⟩
        (if negated then [.plain "IS", .plain "NOT", .plain "NULL"] else [.plain "IS", .plain "NULL"]) =
      some ⟨outer, rest, .operand (.nullTest y negated)⟩ := by
  have his : Reader.step T ⟨outer, items, f⟩ (.plain "IS") = some ⟨outer, rest, .test y false⟩ := by
    have hsymbol : Operator.ofSymbol? "IS" = none := by decide
    rw [Reader.step_of_operand? hf (by decide)]
    simp [Reader.continues, hsymbol, h]
  cases negated with
  | false =>
    rw [if_neg (by decide), Reader.run_cons, his]
    rfl
  | true =>
    rw [if_pos rfl, Reader.run_cons, his]
    rfl

end Step

theorem run_statement {ws : List Word} {depth depth' : Nat} (h : ws.foldlM Word.nest depth = some depth')
    (outer : List (Bracket × Pending)) (items : Pending) (read : List Word) :
    Reader.run T ⟨outer, items, .statement depth read⟩ ws = some ⟨outer, items, .statement depth' (read ++ ws)⟩ := by
  induction ws generalizing depth read with
  | nil =>
    cases h
    simp [Reader.run]
  | cons w ws ih =>
    obtain ⟨d, hd, hrest⟩ := Option.bind_eq_some_iff.1 h
    have hstep : Reader.step T ⟨outer, items, .statement depth read⟩ w =
        some ⟨outer, items, .statement d (read ++ [w])⟩ := by
      simp [Reader.step, Reader.passes, hd]
    rw [Reader.run_cons, hstep, Option.bind_some, ih hrest, List.append_assoc]
    rfl

/-- An operand without operators is read as it is. -/
theorem IsOperand.run {ws : List Word} (h : IsOperand ws) (outer : List (Bracket × Pending)) (items : Pending) :
    ∃ f, Reader.run T ⟨outer, items, .start⟩ ws = some ⟨outer, items, f⟩ ∧ f.operand? = some (.leaf ws) := by
  induction h with
  | quoted quote content => exact ⟨_, rfl, rfl⟩
  | parameter sigil name => exact ⟨_, rfl, rfl⟩
  | @number s h =>
    have hstep : Reader.step T ⟨outer, items, .start⟩ (.plain s) = some ⟨outer, items, .callee s⟩ :=
      Reader.begins_name (isName_of_isNumber h) _
    refine ⟨.callee s, ?_, by simp [Focus.operand?, h]⟩
    rw [Reader.run_cons, hstep]
    rfl
  | @statement ws h =>
    have hopen : Reader.run T ⟨outer, items, .start⟩ [.plain "(", .plain "SELECT"] =
        some ⟨outer, items, .statement 0 [.plain "(", .plain "SELECT"]⟩ := rfl
    have hclose : Reader.step T ⟨outer, items, .statement 0 ([Word.plain "(", Word.plain "SELECT"] ++ ws)⟩
        (Word.plain ")") =
        some ⟨outer, items, .operand (.leaf ([Word.plain "(", Word.plain "SELECT"] ++ ws ++ [Word.plain ")"]))⟩ := rfl
    refine ⟨.operand (.leaf ([Word.plain "(", Word.plain "SELECT"] ++ ws ++ [Word.plain ")"])), ?_, rfl⟩
    rw [show Word.plain "(" :: Word.plain "SELECT" :: ws ++ [Word.plain ")"] =
      [Word.plain "(", Word.plain "SELECT"] ++ ws ++ [Word.plain ")"] from rfl]
    rw [Reader.run_concat, Reader.run_append, hopen, Option.bind_some, run_statement h, Option.bind_some, hclose]
  | @field ws _ quote content ih =>
    obtain ⟨f, hrun, hf⟩ := ih
    have hdot : Reader.step T ⟨outer, items, f⟩ (.plain ".") = some ⟨outer, items, .qualifier ws⟩ := by
      rw [Reader.step_of_operand? hf (by decide)]
      rfl
    refine ⟨.operand (.leaf (ws ++ [Word.plain ".", .quoted quote content])), ?_, rfl⟩
    rw [Reader.run_append, hrun, Option.bind_some, Reader.run_cons, hdot]
    rfl

/-- A tree that is read as a whole, given nothing in front of it. -/
def ReadsWhole (T : Precedence) (t : ReadTree) : Prop :=
  ∀ outer, ∃ items f x, Reader.run T ⟨outer, [], .start⟩ t.words = some ⟨outer, items, f⟩ ∧ f.operand? = some x ∧
    complete items x = t

/-- A group up to some place. -/
theorem IsHead.run {closer : String} {head : List (List Word)} (h : IsHead closer head) {parts : List ReadTree}
    (hlength : head.length = parts.length + 1) (hparts : ∀ t ∈ parts, ReadsWhole T t)
    (outer : List (Bracket × Pending)) (items : Pending) :
    Reader.run T ⟨outer, items, .start⟩ (groupWords head parts) =
      some ⟨(.group closer head parts, items) :: outer, [], .start⟩ := by
  induction h generalizing parts with
  | case =>
    obtain rfl : parts = [] := List.length_eq_zero_iff.1 (Nat.succ.inj hlength).symm
    rfl
  | @call name h =>
    obtain rfl : parts = [] := List.length_eq_zero_iff.1 (Nat.succ.inj hlength).symm
    have hstep : Reader.step T ⟨outer, items, .start⟩ (.plain name) = some ⟨outer, items, .callee name⟩ :=
      Reader.begins_name h _
    show Reader.run T _ [.plain name, .plain "("] = _
    rw [Reader.run_cons, hstep]
    simp [Reader.run, Reader.step]
  | @keyword closer s head h hs ih =>
    rw [length_extendLast _ h.ne_nil] at hlength
    have hstep : Reader.step T ⟨(.group closer head parts, items) :: outer, [], .start⟩ (.plain s) =
        some ⟨(.group closer (extendLast (.plain s) head) parts, items) :: outer, [], .start⟩ := by
      have hkeywords : ∀ s ∈ [",", "WHEN", "THEN", "ELSE", "both", "leading", "trailing", "from"],
          s ≠ "NOT" ∧ s ≠ "(" ∧ s ≠ "CASE" ∧ s ≠ "SELECT" := by decide
      obtain ⟨hnot, hparen, hcase, hselect⟩ := hkeywords s (by simpa [isKeyword] using hs)
      simp [Reader.step, Reader.begins, hnot, hparen, hcase, hselect, hs]
    rw [groupWords_keyword hlength, Reader.run_concat, ih hlength hparts, Option.bind_some, hstep]
  | @part closer s head h hs ih =>
    obtain ⟨ts, t, rfl, hcount⟩ := h.exists_concat (by simpa using hlength)
    obtain ⟨items', f, x, hrun, hf, hx⟩ := hparts t (by simp) ((.group closer head ts, items) :: outer)
    obtain ⟨hparen, hcontinues⟩ := continues_eq_ends (.inl hs)
    have hcloser : s ≠ closer := by
      rintro rfl
      rcases h.closer_eq with rfl | rfl <;> cases hs
    have hstep : Reader.step T ⟨(.group closer head ts, items) :: outer, items', f⟩ (.plain s) =
        some ⟨(.group closer (head ++ [[Word.plain s]]) (ts ++ [t]), items) :: outer, [], .start⟩ := by
      rw [Reader.step_of_operand? hf hparen, hcontinues]
      simp [Reader.ends, hcloser, hs, hx]
    rw [groupWords_part hcount, Reader.run_concat, Reader.run_append,
      ih hcount fun u hu => hparts u (by simp [hu]), Option.bind_some, hrun, Option.bind_some, hstep]

/-- The reader behind the words of a tree stands as if the tree were a single
operand, for everything that leaves its right edge alone. -/
def ReadsBehind (T : Precedence) (items : Pending) (t : ReadTree) : Prop :=
  ∀ outer, ∃ items' f x, Reader.run T ⟨outer, items, .start⟩ t.words = some ⟨outer, items', f⟩ ∧
    f.operand? = some x ∧
    ∀ strength, T.StopsAt strength (t.rightEdge T) → reduce T strength items' x = reduce T strength items t

theorem ReadsBehind.whole {t : ReadTree} (h : ReadsBehind T [] t) : ReadsWhole T t := by
  intro outer
  obtain ⟨items, f, x, hrun, hf, hreduce⟩ := h outer
  have hzero := hreduce 0 (stopsAt_zero _)
  rw [reduce_zero, reduce_zero] at hzero
  exact ⟨items, f, x, hrun, hf, congrArg Prod.snd (Option.some.inj hzero)⟩

/-- **Phrases are read.** -/
theorem Tree.IsPhrase.run {t : ReadTree} (h : t.IsPhrase T) {items : Pending}
    (hitems : Beneath T (t.leftEdge T) items) : ReadsBehind T items t := by
  induction h generalizing items with
  | leaf h =>
    intro outer
    obtain ⟨f, hrun, hf⟩ := h.run outer items
    exact ⟨items, f, _, hrun, hf, fun _ _ => rfl⟩
  | @operation op l r hl hr hleft hright ihl ihr =>
    intro outer
    obtain ⟨hbelow, hbelow'⟩ := beneath_min.1 hitems
    obtain ⟨items', f, x, hrun, hf, hreduce⟩ := ihl hbelow' outer
    have hstop := hreduce _ hleft
    rw [reduce_of_beneath hbelow] at hstop
    have hnext : Beneath T (r.leftEdge T) (.left l op :: items) := by
      rintro item ⟨⟩
      exact hright
    obtain ⟨items'', f', y, hrun', hf', hreduce'⟩ := ihr hnext outer
    refine ⟨items'', f', y, ?_, hf', fun strength hstops => ?_⟩
    · rw [Tree.words, Reader.run_append, hrun, Option.bind_some, Reader.run_cons, step_operator hf hstop,
        Option.bind_some, hrun']
    · obtain ⟨hop, hedge⟩ := stopsAt_min.1 hstops
      rw [hreduce' strength hedge, reduce_cons hop]
      rfl
  | @negation t h hedge ih =>
    intro outer
    have hnext : Beneath T (t.leftEdge T) (.negation :: items) := by
      rintro item ⟨⟩
      exact hedge
    obtain ⟨items', f, x, hrun, hf, hreduce⟩ := ih hnext outer
    refine ⟨items', f, x, hrun, hf, fun strength hstops => ?_⟩
    obtain ⟨hnegation, hinner⟩ := stopsAt_min.1 hstops
    rw [hreduce strength hinner, reduce_cons hnegation]
    rfl
  | @nullTest t negated h hedge ih =>
    intro outer
    obtain ⟨hbelow, hbelow'⟩ := beneath_min.1 hitems
    obtain ⟨items', f, x, hrun, hf, hreduce⟩ := ih hbelow' outer
    have hstop := hreduce _ hedge
    rw [reduce_of_beneath hbelow] at hstop
    refine ⟨items, .operand (.nullTest t negated), _, ?_, rfl, fun _ _ => rfl⟩
    rw [Tree.words, Reader.run_append, hrun, Option.bind_some, run_nullTest negated hf hstop]
  | @paren t h ih =>
    intro outer
    obtain ⟨items', f, x, hrun, hf, hx⟩ := (ih (beneath_nil _)).whole ((.paren, items) :: outer)
    have hopen : Reader.step T ⟨outer, items, .start⟩ (.plain "(") =
        some ⟨(.paren, items) :: outer, [], .start⟩ := rfl
    have hclose : Reader.step T ⟨(.paren, items) :: outer, items', f⟩ (.plain ")") =
        some ⟨outer, items, .operand (.paren t)⟩ := by
      rw [Reader.step_of_operand? hf (by decide), (continues_eq_ends (.inr (.inr rfl))).2]
      simp [Reader.ends, hx]
    refine ⟨items, .operand (.paren t), _, ?_, rfl, fun _ _ => rfl⟩
    rw [Tree.words, Reader.run_concat, Reader.run_cons, hopen, Option.bind_some, hrun, Option.bind_some, hclose]
  | @group closer head parts hhead hlength h ih =>
    intro outer
    obtain ⟨ts, t, rfl, hcount⟩ := hhead.exists_concat hlength
    have hparts : ∀ u ∈ ts ++ [t], ReadsWhole T u := fun u hu => (ih u hu (beneath_nil _)).whole
    obtain ⟨items', f, x, hrun, hf, hx⟩ := hparts t (by simp) ((.group closer head ts, items) :: outer)
    obtain ⟨hparen, hcontinues⟩ := continues_eq_ends (.inr hhead.closer_eq)
    have hclose : Reader.step T ⟨(.group closer head ts, items) :: outer, items', f⟩ (.plain closer) =
        some ⟨outer, items, .operand (.group (head ++ [[Word.plain closer]]) (ts ++ [t]))⟩ := by
      rw [Reader.step_of_operand? hf hparen, hcontinues]
      simp [Reader.ends, hx]
    refine ⟨items, .operand (.group (head ++ [[Word.plain closer]]) (ts ++ [t])), _, ?_, rfl, fun _ _ => rfl⟩
    rw [words_group, groupWords_part hcount, Reader.run_concat, Reader.run_append,
      hhead.run hcount (fun u hu => hparts u (by simp [hu])), Option.bind_some, hrun, Option.bind_some, hclose]

/-! ## Only phrases are read -/

/-- What waits for an operand, with its words: each left operand ends at its
operator, and binds more strongly than what waits in front of it. -/
inductive Awaits (T : Precedence) : Pending → List Word → Prop
  | nil : Awaits T [] []
  | left {items : Pending} {ws : List Word} {t : ReadTree} {op : Operator} (h : Awaits T items ws)
      (ht : t.IsPhrase T) (hright : T.StopsAt (T.operator op) (t.rightEdge T))
      (hop : Beneath T (T.operator op) items) (hleft : Beneath T (t.leftEdge T) items) :
      Awaits T (.left t op :: items) (ws ++ t.words ++ [.plain op.symbol])
  | negation {items : Pending} {ws : List Word} (h : Awaits T items ws) :
      Awaits T (.negation :: items) (ws ++ [.plain "NOT"])

/-- What waits for an operand, and the operand, with its words. -/
structure Offers (T : Precedence) (items : Pending) (x : ReadTree) (ws : List Word) : Prop where
  awaits : ∃ before, Awaits T items before ∧ ws = before ++ x.words
  phrase : x.IsPhrase T
  left : Beneath T (x.leftEdge T) items

/-- What waits last takes its operand. -/
theorem Offers.around {item : Item (List (List Word)) (List Word)} {items : Pending} {x : ReadTree} {ws : List Word}
    (h : Offers T (item :: items) x ws) :
    Offers T items (item.around x) ws ∧
      (item.around x).rightEdge T = min (item.strength T) (x.rightEdge T) := by
  obtain ⟨⟨before, hawaits, rfl⟩, hphrase, hleft⟩ := h
  have hbelow : item.strength T < x.leftEdge T := hleft item rfl
  cases hawaits with
  | @left _ ws t op hawaits ht hstop hop hedge =>
    exact ⟨⟨⟨ws, hawaits, by simp [Item.around, Tree.words]⟩, .operation ht hphrase hstop hbelow,
      beneath_min.2 ⟨hop, hedge⟩⟩, rfl⟩
  | @negation _ ws hawaits =>
    exact ⟨⟨⟨ws, hawaits, by simp [Item.around, Tree.words]⟩, .negation hphrase hbelow, beneath_atom items⟩, rfl⟩

/-- What is complete in front of an operator stays so while operations are
completed. -/
theorem Offers.reduce {strength : Nat} {items rest : Pending} {x y : ReadTree} {ws : List Word}
    (h : Offers T items x ws) (hright : T.StopsAt strength (x.rightEdge T))
    (hreduce : Sql.reduce T strength items x = some (rest, y)) :
    Offers T rest y ws ∧ T.StopsAt strength (y.rightEdge T) ∧ Beneath T strength rest := by
  induction items generalizing x with
  | nil =>
    cases hreduce
    exact ⟨h, hright, beneath_nil _⟩
  | cons item items ih =>
    rw [Sql.reduce] at hreduce
    split at hreduce
    · rename_i hlt
      cases hreduce
      refine ⟨h, hright, ?_⟩
      rintro item ⟨⟩
      exact hlt
    split at hreduce
    · cases hreduce
    · rename_i hle hchain
      have hstops : T.StopsAt strength (item.strength T) :=
        ⟨Nat.not_lt.1 hle, fun hchains => (Nat.not_lt.1 hle).lt_of_ne fun heq => hchain ⟨heq.symm, hchains⟩⟩
      obtain ⟨hoffers, hedge⟩ := h.around
      exact ih hoffers (hedge ▸ stopsAt_min.2 ⟨hstops, hright⟩) hreduce

/-- All operations completed. -/
theorem Offers.complete {items : Pending} {x : ReadTree} {ws : List Word} (h : Offers T items x ws) :
    (Sql.complete items x).IsPhrase T ∧ ws = (Sql.complete items x).words := by
  obtain ⟨⟨⟨before, hawaits, hws⟩, hphrase, -⟩, -, -⟩ := h.reduce (stopsAt_zero _) (reduce_zero items x)
  cases hawaits
  exact ⟨hphrase, hws⟩

/-- The open brackets, with their words. -/
inductive Encloses (T : Precedence) : List (Bracket × Pending) → List Word → Prop
  | nil : Encloses T [] []
  | paren {outer : List (Bracket × Pending)} {waiting : Pending} {ws ws' : List Word} (h : Encloses T outer ws)
      (hwaiting : Awaits T waiting ws') : Encloses T ((.paren, waiting) :: outer) (ws ++ ws' ++ [.plain "("])
  | group {outer : List (Bracket × Pending)} {waiting : Pending} {ws ws' : List Word} {closer : String}
      {head : List (List Word)} {parts : List ReadTree} (h : Encloses T outer ws) (hwaiting : Awaits T waiting ws')
      (hhead : IsHead closer head) (hlength : head.length = parts.length + 1) (hparts : ∀ t ∈ parts, t.IsPhrase T) :
      Encloses T ((.group closer head parts, waiting) :: outer) (ws ++ ws' ++ groupWords head parts)

/-- What has been read last, with its words. -/
inductive Focus.Holds (T : Precedence) (items : Pending) : Focus → List Word → Prop
  | start : Focus.Holds T items .start []
  | operand {t : ReadTree} (h : t.IsPhrase T) (hleft : Beneath T (t.leftEdge T) items)
      (hright : t.rightEdge T = T.atom) : Focus.Holds T items (.operand t) t.words
  | qualifier {ws : List Word} (h : IsOperand ws) : Focus.Holds T items (.qualifier ws) (ws ++ [.plain "."])
  | callee {name : String} (h : isName name) : Focus.Holds T items (.callee name) [.plain name]
  | test {t : ReadTree} (negated : Bool) (h : t.IsPhrase T) (hleft : Beneath T (t.leftEdge T) items)
      (hnull : Beneath T T.nullTest items) (hright : T.StopsAt T.nullTest (t.rightEdge T)) :
      Focus.Holds T items (.test t negated)
        (t.words ++ if negated then [.plain "IS", .plain "NOT"] else [.plain "IS"])
  | statement {depth : Nat} {ws : List Word} (h : ws.foldlM Word.nest 0 = some depth) :
      Focus.Holds T items (.statement depth (.plain "(" :: .plain "SELECT" :: ws))
        (.plain "(" :: .plain "SELECT" :: ws)

/-- A reader that has read the given words. -/
def Reader.Holds (T : Precedence) (r : Reader) (ws : List Word) : Prop :=
  ∃ around before last, Encloses T r.outer around ∧ Awaits T r.pending before ∧
    r.focus.Holds T r.pending last ∧ ws = around ++ before ++ last

/-- An operand has no operator on its right edge. -/
theorem Focus.Holds.offers {items : Pending} {f : Focus} {before last : List Word} {t : ReadTree}
    (h : f.Holds T items last) (hawaits : Awaits T items before) (hf : f.operand? = some t) :
    Offers T items t (before ++ last) ∧ t.rightEdge T = T.atom := by
  cases h with
  | operand h hleft hright =>
    cases hf
    exact ⟨⟨⟨before, hawaits, rfl⟩, h, hleft⟩, hright⟩
  | @callee name h =>
    simp only [Focus.operand?] at hf
    split at hf
    · rename_i hnumber
      cases hf
      exact ⟨⟨⟨before, hawaits, rfl⟩, .leaf (.number hnumber), beneath_atom items⟩, rfl⟩
    · cases hf
  | start | qualifier | test | statement => cases hf

namespace Reader

variable {outer : List (Bracket × Pending)} {items : Pending} {f : Focus} {r : Reader} {s : String} {ws : List Word}

/-- A word where an operand is expected. -/
theorem Holds.begins (h : Holds T ⟨outer, items, .start⟩ ws)
    (hbegins : Reader.begins ⟨outer, items, .start⟩ s = some r) : r.Holds T (ws ++ [Word.plain s]) := by
  obtain ⟨around, before, last, houter, hawaits, hlast, rfl⟩ := h
  cases hlast
  simp only [Reader.begins] at hbegins
  split at hbegins
  · rename_i hs
    cases hbegins
    subst hs
    exact ⟨_, _, _, houter, .negation hawaits, .start, by simp⟩
  split at hbegins
  · rename_i hs
    cases hbegins
    subst hs
    exact ⟨_, _, _, .paren houter hawaits, .nil, .start, by simp⟩
  split at hbegins
  · rename_i hs
    cases hbegins
    subst hs
    exact ⟨_, _, _, .group houter hawaits .case rfl (List.forall_mem_nil _), .nil, .start,
      by simp [groupWords, weave]⟩
  split at hbegins
  · rename_i hs
    subst hs
    split at hbegins
    · cases hbegins
      cases hawaits
      cases houter with
      | paren houter hwaiting =>
        exact ⟨_, _, _, houter, hwaiting, .statement rfl, by simp⟩
    · cases hbegins
  split at hbegins
  · rename_i hkeyword
    split at hbegins
    · cases hbegins
      cases hawaits
      cases houter with
      | group houter hwaiting hhead hlength hparts =>
        refine ⟨_, _, _, .group houter hwaiting (.keyword hhead hkeyword)
          ((length_extendLast _ hhead.ne_nil).trans hlength) hparts, .nil, .start, ?_⟩
        simp [groupWords_keyword hlength]
    · cases hbegins
  split at hbegins
  · rename_i hnot hparen hcase hselect hkeyword hall
    cases hbegins
    refine ⟨_, _, _, houter, hawaits, .callee ?_, by simp⟩
    simp [isName, hnot, hparen, hcase, hselect, hkeyword, hall]
  · cases hbegins

/-- A word at the end of a bracket, or of one of its parts. -/
theorem ends_holds {around rest : List Word} {t : ReadTree} (houter : Encloses T outer around)
    (hoffers : Offers T items t rest) (hends : Reader.ends ⟨outer, items, f⟩ t s = some r) :
    r.Holds T (around ++ rest ++ [Word.plain s]) := by
  obtain ⟨hphrase, rfl⟩ := hoffers.complete
  cases houter with
  | nil => cases hends
  | paren houter hwaiting =>
    simp only [Reader.ends] at hends
    split at hends
    · rename_i hs
      cases hends
      subst hs
      exact ⟨_, _, _, houter, hwaiting, .operand (.paren hphrase) (beneath_atom _) rfl, by simp [Tree.words]⟩
    · cases hends
  | @group outer waiting _ _ closer head parts houter hwaiting hhead hlength hparts =>
    have hall : ∀ u ∈ parts ++ [Sql.complete items t], u.IsPhrase T := by
      intro u hu
      rcases List.mem_append.1 hu with hu | hu
      · exact hparts u hu
      · exact List.mem_singleton.1 hu ▸ hphrase
    have hwords := groupWords_part hlength (Sql.complete items t) [.plain s]
    simp only [Reader.ends] at hends
    split at hends
    · rename_i hs
      cases hends
      subst hs
      refine ⟨_, _, _, houter, hwaiting, .operand (.group hhead (by simpa using hlength) hall) (beneath_atom _) rfl,
        ?_⟩
      simp [words_group, hwords]
    split at hends
    · rename_i hs
      cases hends
      refine ⟨_, _, _, .group houter hwaiting (.part hhead hs) (by simpa using hlength) hall, .nil, .start, ?_⟩
      simp [hwords]
    · cases hends

/-- A word behind an operand. -/
theorem continues_holds {around before last : List Word} {t : ReadTree} (houter : Encloses T outer around)
    (hawaits : Awaits T items before) (hlast : f.Holds T items last) (hf : f.operand? = some t)
    (hcontinues : Reader.continues T ⟨outer, items, .start⟩ t s = some r) :
    r.Holds T (around ++ before ++ last ++ [Word.plain s]) := by
  obtain ⟨hoffers, hedge⟩ := hlast.offers hawaits hf
  have hstops : ∀ {strength}, strength < T.atom → T.StopsAt strength (t.rightEdge T) := fun h =>
    hedge ▸ stopsAt_of_lt h
  simp only [Reader.continues] at hcontinues
  split at hcontinues
  · rename_i op hop
    obtain ⟨⟨rest, y⟩, hreduce, rfl⟩ := Option.map_eq_some_iff.1 hcontinues
    obtain ⟨⟨⟨before', hawaits', hwords⟩, hphrase, hleft⟩, hright, hbeneath⟩ :=
      hoffers.reduce (hstops (T.operator_lt_atom op)) hreduce
    have hsymbol : op.symbol = s := by simpa using List.find?_some hop
    refine ⟨_, _, _, houter, .left hawaits' hphrase hright hbeneath hleft, .start, ?_⟩
    simp [← hwords, hsymbol]
  split at hcontinues
  · rename_i hs
    subst hs
    obtain ⟨⟨rest, y⟩, hreduce, rfl⟩ := Option.map_eq_some_iff.1 hcontinues
    obtain ⟨⟨⟨before', hawaits', hwords⟩, hphrase, hleft⟩, hright, hbeneath⟩ :=
      hoffers.reduce (hstops T.nullTest_lt_atom) hreduce
    refine ⟨_, _, _, houter, hawaits', .test false hphrase hleft hbeneath hright, ?_⟩
    rw [List.append_assoc around, hwords]
    simp
  split at hcontinues
  · rename_i hs
    subst hs
    split at hcontinues
    · rename_i ws
      cases hcontinues
      obtain ⟨⟨before', hawaits', hwords⟩, hphrase, -⟩ := hoffers
      cases hphrase with
      | leaf hoperand =>
        refine ⟨_, _, _, houter, hawaits', .qualifier hoperand, ?_⟩
        rw [List.append_assoc around, hwords]
        simp [Tree.words]
    · cases hcontinues
  · rw [List.append_assoc around]
    exact ends_holds houter hoffers hcontinues

/-- A word inside a statement. -/
theorem passes_holds {around before last read : List Word} {depth : Nat} {w : Word} (houter : Encloses T outer around)
    (hawaits : Awaits T items before) (hlast : (Focus.statement depth read).Holds T items last) :
    (Reader.passes ⟨outer, items, .statement depth read⟩ depth read w).Holds T (around ++ before ++ last ++ [w]) := by
  cases hlast with
  | @statement _ ws hdepth =>
    simp only [Reader.passes]
    split
    · rename_i depth' hnest
      have hnext : (ws ++ [w]).foldlM Word.nest 0 = some depth' := by
        rw [List.foldlM_append, hdepth]
        simpa using hnest
      exact ⟨_, _, _, houter, hawaits, .statement hnext, by simp⟩
    · rename_i hnest
      obtain ⟨rfl, rfl⟩ := Word.nest_eq_none hnest
      exact ⟨_, _, _, houter, hawaits, .operand (.leaf (.statement hdepth)) (beneath_atom _) rfl,
        by simp [Tree.words]⟩

/-- **One word.** What the reader holds goes on to be made of phrases, and to have
the words that were read. -/
theorem Holds.step {r' : Reader} {w : Word} (h : r.Holds T ws) (hstep : r.step T w = some r') :
    r'.Holds T (ws ++ [w]) := by
  obtain ⟨outer, items, f⟩ := r
  have hholds := h
  obtain ⟨around, before, last, houter, hawaits, hlast, rfl⟩ := h
  cases f with
  | start =>
    cases w with
    | plain s => exact hholds.begins hstep
    | quoted quote content =>
      cases hstep
      cases hlast
      exact ⟨_, _, _, houter, hawaits, .operand (.leaf (.quoted quote content)) (beneath_atom _) rfl,
        by simp [Tree.words]⟩
    | parameter sigil name =>
      cases hstep
      cases hlast
      exact ⟨_, _, _, houter, hawaits, .operand (.leaf (.parameter sigil name)) (beneath_atom _) rfl,
        by simp [Tree.words]⟩
  | operand t =>
    cases w with
    | plain s => exact continues_holds houter hawaits hlast rfl hstep
    | quoted | parameter => cases hstep
  | qualifier ws =>
    cases w with
    | quoted quote content =>
      cases hstep
      cases hlast with
      | qualifier hoperand =>
        exact ⟨_, _, _, houter, hawaits, .operand (.leaf (.field hoperand quote content)) (beneath_atom _) rfl,
          by simp [Tree.words]⟩
    | plain | parameter => cases hstep
  | callee name =>
    cases w with
    | plain s =>
      simp only [Reader.step] at hstep
      split at hstep
      · rename_i hs
        cases hstep
        subst hs
        cases hlast with
        | callee hname =>
          exact ⟨_, _, _, .group houter hawaits (.call hname) rfl (List.forall_mem_nil _), .nil, .start,
            by simp [groupWords, weave]⟩
      split at hstep
      · rename_i hnumber
        exact continues_holds houter hawaits hlast (by simp [Focus.operand?, hnumber]) hstep
      · cases hstep
    | quoted | parameter => cases hstep
  | test t negated =>
    cases w with
    | plain s =>
      simp only [Reader.step] at hstep
      cases hlast with
      | test _ hphrase hleft hnull hright =>
        split at hstep
        · rename_i hs
          cases hstep
          subst hs
          refine ⟨_, _, _, houter, hawaits, .operand (.nullTest negated hphrase hright)
            (beneath_min.2 ⟨hnull, hleft⟩) rfl, ?_⟩
          cases negated <;> simp [Tree.words]
        split at hstep
        · rename_i hs
          obtain ⟨rfl, rfl⟩ := hs
          cases hstep
          exact ⟨_, _, _, houter, hawaits, .test true hphrase hleft hnull hright, by simp⟩
        · cases hstep
    | quoted | parameter => cases hstep
  | statement depth read =>
    have hpasses : r' = Reader.passes ⟨outer, items, .statement depth read⟩ depth read w := by
      cases w <;> exact (Option.some.inj hstep).symm
    subst hpasses
    exact passes_holds houter hawaits hlast

theorem Holds.run {r' : Reader} {ws' : List Word} (h : r.Holds T ws) (hrun : r.run T ws' = some r') :
    r'.Holds T (ws ++ ws') := by
  induction ws' generalizing r ws with
  | nil =>
    cases hrun
    rwa [List.append_nil]
  | cons w ws' ih =>
    obtain ⟨r'', hstep, hrest⟩ := Option.bind_eq_some_iff.1 hrun
    have hholds := ih (h.step hstep) hrest
    rwa [List.append_assoc] at hholds

end Reader

/-- **Reading is the inverse of writing.** -/
theorem readWords_iff {ws : List Word} {t : ReadTree} : readWords T ws = some t ↔ t.IsPhrase T ∧ t.words = ws := by
  constructor
  · intro h
    have hstart : Reader.Holds T ⟨[], [], .start⟩ [] := ⟨_, _, _, .nil, .nil, .start, rfl⟩
    rw [readWords] at h
    split at h
    · rename_i items f hrun
      obtain ⟨x, hf, rfl⟩ := Option.map_eq_some_iff.1 h
      obtain ⟨around, before, last, houter, hawaits, hlast, hws⟩ := hstart.run hrun
      cases houter
      obtain ⟨hphrase, hwords⟩ := (hlast.offers hawaits hf).1.complete
      exact ⟨hphrase, hwords.symm.trans hws.symm⟩
    · cases h
  · rintro ⟨hphrase, rfl⟩
    obtain ⟨items, f, x, hrun, hf, hx⟩ := (hphrase.run (beneath_nil _)).whole []
    rw [readWords, hrun]
    simp only [hf, Option.map_some, hx]

end ParamQuery.Sql
