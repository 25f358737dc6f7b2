/-
The terms that queries become. `Term.Built` says what emission puts into a
term: the templates of methods, keywords without quotes, and slots of a given
kind (`Expr.emit_built`). Whatever is built is legible (`Term.Built.legible`),
and where every argument of a call has one place in the call's template, the
slots stand in the text as often as they are visited (`Term.Built.slots_perm`).
-/
import ParamQuery.Proofs.ExprFacts
import ParamQuery.Proofs.FragmentFacts
import Mathlib.Data.List.Perm.Basic
import Mathlib.Tactic.IntervalCases

namespace ParamQuery.Sql

variable {β γ : Type}

/-! ## Templates -/

/-- The parts of a template as tokens, its slots numbers of fragments. -/
def Template.fragment (t : Template) : Fragment (Option Nat) :=
  t.parts.map fun p => match p with
    | .text cs => .text (String.ofList cs)
    | .slot i => .slot i

theorem Template.expand_eq_splice (t : Template) (fs : List (Fragment β)) :
    t.expand (fun cs => [.text (String.ofList cs)]) fs =
      t.fragment.splice fun i => match i with
        | none => []
        | some i => fs.getD i [] := by
  rw [Template.expand, Template.fragment, Fragment.splice, List.flatMap_map]
  refine List.flatMap_congr fun p _ => ?_
  cases p with
  | text cs => rfl
  | slot i => cases i <;> rfl

end ParamQuery.Sql

namespace ParamQuery

/-- The SQL of a call: the receiver is number 0, the arguments follow. -/
def Method.layout (m : Method) (arguments : Nat) : Sql.Fragment Nat :=
  match m with
  | .equals => [.slot 0, .text " = ", .slot 1]
  | .toLower => [.text "LOWER(", .slot 0, .text ")"]
  | .toUpper => [.text "UPPER(", .slot 0, .text ")"]
  | .reverse => [.text "REVERSE(", .slot 0, .text ")"]
  | .length => [.text "LENGTH(", .slot 0, .text ")"]
  | .concat => [.text "CONCAT(", .slot 0, .text ")"]
  | .substring =>
    if 1 < arguments then
      [.text "SUBSTRING(", .slot 0, .text " FROM ", .slot 1, .text "+1 FOR ", .slot 2, .text ")"]
    else [.text "SUBSTRING(", .slot 0, .text " FROM ", .slot 1, .text "+1)"]
  | .replace => [.text "REPLACE(", .slot 0, .text ", ", .slot 1, .text ", ", .slot 2, .text ")"]
  | .trim => [.text "TRIM(both ", .slot 1, .text " from ", .slot 0, .text ")"]
  | .trimStart => [.text "TRIM(leading ", .slot 1, .text " from ", .slot 0, .text ")"]
  | .trimEnd => [.text "TRIM(trailing ", .slot 1, .text " from ", .slot 0, .text ")"]
  | .contains => [.slot 0, .text " LIKE '%' || ", .slot 1, .text " || '%'"]
  | .startsWith => [.slot 0, .text " LIKE ", .slot 1, .text " || '%'"]
  | .endsWith => [.slot 0, .text " LIKE '%' || ", .slot 1]

/-- A layout as the parts of a template. -/
def Method.layoutParts (f : Sql.Fragment Nat) : List Sql.TemplatePart :=
  f.map fun t => match t with
    | .text s | .name s | .key s => .text s.toList
    | .slot i => .slot (some i)

set_option maxRecDepth 4000 in
/-- The template of a method has the parts of its layout. -/
theorem Method.parts_ofMethod (m : Method) (arguments : Nat) :
    (Sql.Template.ofMethod m arguments).parts = layoutParts (m.layout arguments) := by
  cases m with
  | substring =>
    by_cases h : 1 < arguments
    · simp only [Sql.Template.ofMethod, Method.layout, h, if_true]
      decide
    · simp only [Sql.Template.ofMethod, Method.layout, h, if_false]
      decide
  | equals | toLower | toUpper | reverse | length | concat | replace | trim | trimStart | trimEnd | contains
  | startsWith | endsWith =>
    simp only [Sql.Template.ofMethod, Method.layout]
    decide

/-- A layout has no names and no keys. -/
theorem Method.layout_tokens (m : Method) (arguments : Nat) :
    ∀ t ∈ m.layout arguments, (∃ s, t = .text s) ∨ ∃ i, t = .slot i := by
  cases m <;> simp [Method.layout]
  split <;> simp

theorem Method.fragment_ofMethod (m : Method) (arguments : Nat) :
    (Sql.Template.ofMethod m arguments).fragment = (m.layout arguments).map (Sql.Token.map some) := by
  rw [Sql.Template.fragment, parts_ofMethod, layoutParts, List.map_map]
  refine List.map_congr_left fun t ht => ?_
  rcases m.layout_tokens arguments t ht with ⟨s, rfl⟩ | ⟨i, rfl⟩
  · simp [Sql.Token.map]
  · rfl

/-- Every method's text has a delimiter behind its slots and its quotes. -/
theorem Method.layout_legible (m : Method) (arguments : Nat) : (m.layout arguments).Legible := by
  have slot := fun i : Nat => Sql.Fragment.Legible.slot i
  have call : ∀ (s : String) (f : Sql.Fragment Nat), Sql.isOpening s → f.Legible →
      Sql.Fragment.Legible (Sql.Token.text s :: (f ++ [Sql.Token.text ")"])) :=
    fun s f hs hf => .cons hs (hf.close (by decide))
  cases m with
  | equals => exact (slot 0).join (by decide) (slot 1)
  | toLower | toUpper | reverse | length | concat => exact call _ _ (by decide) (slot 0)
  | substring =>
    simp only [Method.layout]
    split
    · exact call _ _ (by decide)
        ((slot 0).join (by decide) ((slot 1).join (by decide) (slot 2)))
    · exact .cons (by decide) ((slot 0).join (by decide) ((slot 1).close (by decide)))
  | replace =>
    exact call _ _ (by decide) ((slot 0).join (by decide) ((slot 1).join (by decide) (slot 2)))
  | trim | trimStart | trimEnd => exact call _ _ (by decide) ((slot 1).join (by decide) (slot 0))
  | contains | startsWith => exact (slot 0).join (by decide) ((slot 1).close (by decide))
  | endsWith => exact (slot 0).join (by decide) (slot 1)

/-- Each of the first `n` numbers has one place in the layout, and there are no
others but those that stand for nothing. -/
def Woven (layout : Sql.Fragment Nat) (n : Nat) : Prop := (layout.slots.filter (· < n)).Perm (List.range n)

instance (layout : Sql.Fragment Nat) (n : Nat) : Decidable (Woven layout n) :=
  inferInstanceAs (Decidable (List.Perm _ _))

/-- How many terms a call hands to its template. -/
def callArity (method : Method) (receiver : Option Expr) (arguments : List Expr) : Nat :=
  if method = .concat then 1 else receiver.toList.length + arguments.length

/-- A call that its method accepts: the receiver is there unless the method has
none, and the arguments are as many as it takes. -/
theorem accepts_of_callOf {method : Method} {receiver : Option Expr} {arguments : List Expr} {e : Expr}
    (h : Expr.callOf method receiver arguments = .ok e) :
    (method.hasReceiver = true → receiver.isSome = true) ∧ method.accepts arguments.length = true := by
  unfold Expr.callOf at h
  split at h
  · cases h
  · rename_i hmissing
    split at h
    · cases h
    · split at h
      · rename_i haccepts
        refine ⟨fun hr => ?_, haccepts⟩
        cases receiver <;> simp_all
      · cases h

/-- A call that its method accepts uses every argument once. -/
theorem woven_of_callOf {method : Method} {receiver : Option Expr} {arguments : List Expr} {e : Expr}
    (h : Expr.callOf method receiver arguments = .ok e) :
    Woven (method.layout arguments.length) (callArity method receiver arguments) := by
  obtain ⟨hrecv, haccepts⟩ := accepts_of_callOf h
  simp only [Method.accepts, Bool.and_eq_true, decide_eq_true_eq] at haccepts
  obtain ⟨hmin, hmax⟩ := haccepts
  have hone : ∀ {r : Option Expr}, r.isSome = true → r.toList.length = 1 := by
    intro r hr
    obtain ⟨e, rfl⟩ := Option.isSome_iff_exists.1 hr
    rfl
  cases method with
  | concat =>
    simp only [callArity, if_true, Method.layout]
    decide
  | equals | toLower | toUpper | reverse | length | replace | contains | startsWith | endsWith
  | substring | trim | trimStart | trimEnd =>
    simp only [Method.minArguments, Method.maxArguments, decide_eq_true_eq] at hmin hmax
    simp only [callArity, reduceCtorEq, if_false, hone (hrecv rfl), Method.layout]
    generalize arguments.length = n at hmin hmax ⊢
    interval_cases n <;> decide

end ParamQuery

namespace ParamQuery.Sql

variable {β γ : Type}

/-! ## Terms -/

/-- Letters, digits and blanks: a keyword or a number. -/
def isWords (s : String) : Bool := s.toList.all fun c => Lexer.isIdentifier c || c == ' '

theorem Lexer.run_words {cs : List Char} (h : ∀ c ∈ cs, (Lexer.isIdentifier c || c == ' ') = true) :
    Lexer.run .outside cs = (cs.map .char, .outside) := by
  induction cs with
  | nil => rfl
  | cons c cs ih =>
    have hplain : c ≠ '"' ∧ c ≠ '\'' ∧ c ≠ '@' ∧ c ≠ '$' := by
      have hc := h c (by simp)
      refine ⟨?_, ?_, ?_, ?_⟩ <;> (rintro rfl; exact absurd hc (by decide))
    have hstart : Lexer.start c = ([.char c], .outside) := by simp [Lexer.start, hplain]
    simp only [Lexer.run, Lexer.step, hstart, ih fun d hd => h d (by simp [hd]), List.map_cons, List.singleton_append]

theorem isOpening_of_isWords {s : String} (h : isWords s) : isOpening s := by
  have hrun := Lexer.run_words (List.all_eq_true.1 h)
  have hsigns : s.toList.all fun c => c != '@' && c != '$' := by
    rw [List.all_eq_true]
    intro c hc
    have hw := List.all_eq_true.1 h c hc
    simp only [Bool.and_eq_true, bne_iff_ne]
    constructor <;> (rintro rfl; exact absurd hw (by decide))
  simp [isOpening, isWhole, isTight, textLexemes, hrun, Lexer.State.isBetween, Lexer.State.flush, Lexeme.isPlain,
    hsigns]

theorem isWhole_of_isWords {s : String} (h : isWords s) : isWhole s := by
  have hopening := isOpening_of_isWords h
  simp only [isOpening, Bool.and_eq_true] at hopening
  exact hopening.1

/-- A term as emission makes it. `ok` is what is known of a method, of the number
of its arguments and of the number of terms that are handed to its template,
and `S` is what is known of the slots. -/
inductive Term.Built (ok : Method → Nat → Nat → Prop) (S : β → Prop) : Term β → Prop
  | slot {b} : S b → Built ok S (.slot b)
  | table (name) : Built ok S (.table name)
  | allColumns (table) : Built ok S (.allColumns table)
  | column {qualifier} (name steps) : Built ok S qualifier → Built ok S (.column qualifier name steps)
  | countAll : Built ok S .countAll
  | labelled {t} (label) : Built ok S t → Built ok S (.labelled t label)
  | list {items} : (∀ t ∈ items, Built ok S t) → Built ok S (.list items)
  | operation {left right} (op) : Built ok S left → Built ok S right → Built ok S (.operation left op right)
  | nullTest {t} (negated) : Built ok S t → Built ok S (.nullTest t negated)
  | negation {t} : Built ok S t → Built ok S (.negation t)
  | paren {t} : Built ok S t → Built ok S (.paren t)
  | lengthOf {t} : Built ok S t → Built ok S (.lengthOf t)
  | call {method n arguments} : ok method n arguments.length → (∀ t ∈ arguments, Built ok S t) →
      Built ok S (.call (.ofMethod method n) arguments)
  | caseWhen {arms otherwise} : (∀ a ∈ arms, ∀ t ∈ a.guards, Built ok S t) →
      (∀ a ∈ arms, Built ok S a.value) → Built ok S otherwise → Built ok S (.caseWhen arms otherwise)
  | groupCount {inner outer} (table copy) : Built ok S inner → Built ok S outer →
      Built ok S (.groupCount table copy inner outer)
  | subquery {s} : Built ok S s.items → (∀ j ∈ s.joins, Built ok S j.outer) →
      (∀ j ∈ s.joins, Built ok S j.inner) → (∀ t ∈ s.conditions, Built ok S t) →
      (∀ t ∈ s.groupBy, Built ok S t) → (∀ k ∈ s.orderBy, Built ok S k.key) →
      (∀ j ∈ s.joins, isWords j.keyword) → (∀ k ∈ s.orderBy, isWords k.keyword) → Built ok S (.subquery s)

theorem isSeparator_padded (op : Infix) : isSeparator op.padded := by
  cases op with
  | concat => decide
  | operator op => cases op <;> decide

/-! ## Built terms are legible -/

/-- A fragment that can stand behind any other. -/
def Fragment.Trailing (f : Fragment β) : Prop := f.Legible ∧ ∀ t ∈ f.head?, t.delimiter

namespace Fragment.Trailing

theorem nil : Trailing ([] : Fragment β) := ⟨.nil, by simp⟩

theorem cons {s : String} (hs : isSeparator s) {f : Fragment β} (hf : f.Legible) : Trailing (.text s :: f) := by
  simp only [isSeparator, Bool.and_eq_true] at hs
  exact ⟨.cons (by simp [isOpening, hs.1]) hf, by simp [Token.delimiter, hs.2]⟩

theorem append {f g : Fragment β} (hf : f.Trailing) (hg : g.Trailing) : Trailing (f ++ g) := by
  refine ⟨hf.1.append hg.1 hg.2, fun t ht => ?_⟩
  cases f with
  | nil => exact hg.2 t ht
  | cons u f => exact hf.2 t ht

theorem flatMap {α : Type} {g : α → Fragment β} {l : List α} (h : ∀ a ∈ l, (g a).Trailing) :
    Trailing (l.flatMap g) := by
  induction l with
  | nil => exact nil
  | cons a l ih => exact (h a (by simp)).append (ih fun b hb => h b (by simp [hb]))

end Fragment.Trailing

theorem guardFragment_legible {fs : List (Fragment β)} (h : ∀ f ∈ fs, f.Legible) : (guardFragment fs).Legible := by
  match fs, h with
  | [], _ => exact .nil
  | [f], h => exact h f (by simp)
  | f :: g :: fs, h =>
    refine .separated (by decide) fun x hx => ?_
    obtain ⟨y, hy, rfl⟩ := List.mem_map.1 hx
    exact (h y hy).parenthesized

theorem Frame.whereClause_trailing {fs : List (Fragment β)} (h : ∀ f ∈ fs, f.Legible) :
    (Frame.whereClause fs).Trailing := by
  match fs, h with
  | [], _ => exact .nil
  | [f], h => exact .cons (by decide) (h f (by simp))
  | f :: g :: fs, h =>
    refine .cons (by decide) (.separated (by decide) fun x hx => ?_)
    obtain ⟨y, hy, rfl⟩ := List.mem_map.1 hx
    exact (h y hy).parenthesized

theorem Frame.listClause_trailing {keyword : String} (hk : isSeparator keyword) {fs : List (Fragment β)}
    (h : ∀ f ∈ fs, f.Legible) : (Frame.listClause keyword fs).Trailing := by
  unfold Frame.listClause
  split
  · exact .nil
  · exact .cons hk (.separated (by decide) h)

/-- The characters of a number. -/
theorem isIdentifier_of_mem_toString {n : Nat} {c : Char} (h : c ∈ (toString n).toList) :
    Lexer.isIdentifier c := by
  have hd : c.isDigit := Nat.isDigit_of_mem_toDigits (b := 10) (by omega) (by omega) (by simpa using h)
  simp [Lexer.isIdentifier, Char.isAlphanum, hd]

/-- A number is made of digits. -/
theorem isWords_toString (n : Nat) : isWords (toString n) :=
  List.all_eq_true.2 fun _ hc => by simp [isIdentifier_of_mem_toString hc]

theorem isWords_limitText (n : Nat) : isWords (limitText n) := by
  unfold limitText
  split
  · decide
  · exact isWords_toString n

/-- A statement of legible clauses is legible. -/
theorem Frame.statement_legible {f : Frame β} (hselect : f.select.Legible) (hsource : f.source.Legible)
    (hjoins : ∀ j ∈ f.joins, j.Legible) (hconditions : ∀ c ∈ f.conditions, c.Legible)
    (hgroups : ∀ g ∈ f.groupBy, g.Legible) (horder : ∀ k ∈ f.orderBy, k.Legible)
    (hlimit : ∀ s ∈ f.limit, isWhole s) : f.statement.Legible := by
  have hhead : Fragment.Legible
      (Token.text "SELECT " :: (if f.distinct then [Token.text "DISTINCT "] else []) ++ f.select) := by
    refine .cons (by decide) ?_
    split
    · exact .cons (by decide) hselect
    · exact hselect
  have hlim : Fragment.Trailing (f.limit.elim [] fun n => [.text " LIMIT ", .text n] : Fragment β) := by
    cases h : f.limit with
    | none => exact .nil
    | some n => exact .cons (by decide) (.text (hlimit n h))
  have hoff : Fragment.Trailing (f.offset.elim [] fun n => [.text " OFFSET ", .text (toString n)] : Fragment β) := by
    cases f.offset with
    | none => exact .nil
    | some n => exact .cons (by decide) (.text (isWhole_of_isWords (isWords_toString n)))
  have hfrom : Fragment.Trailing (.text " FROM " :: f.source) := .cons (by decide) hsource
  have hjoin : Fragment.Trailing (f.joins.flatMap (.text " " :: ·)) :=
    .flatMap fun j hj => .cons (by decide) (hjoins j hj)
  have hgroup : (Frame.listClause " GROUP BY " f.groupBy).Trailing := Frame.listClause_trailing (by decide) hgroups
  have hkeys : (Frame.listClause " ORDER BY " f.orderBy).Trailing := Frame.listClause_trailing (by decide) horder
  have htail := (((((hfrom.append hjoin).append (Frame.whereClause_trailing hconditions)).append hgroup).append
    hkeys).append hlim).append hoff
  have hall := hhead.append htail.1 htail.2
  rw [Frame.statement]
  simp only [List.append_assoc] at hall ⊢
  revert hall
  cases f.limit <;> cases f.offset <;> exact id

theorem Select.legible {s : Select β} (h : s.All fun t => t.fragment.Legible)
    (hjoins : ∀ j ∈ s.joins, isWords j.keyword) (hkeys : ∀ k ∈ s.orderBy, isWords k.keyword) :
    s.frame.statement.Legible := by
  rw [Select.frame_eq]
  refine Frame.statement_legible h.items ?_ ?_ ?_ ?_ ?_ ?_
  · unfold Select.sourceFragment
    cases s.schema with
    | none => exact .name _
    | some schema => exact .qualified _ _
  · intro f hf
    obtain ⟨j, hj, rfl⟩ := List.mem_map.1 hf
    have hon : Fragment.Legible (([Token.name j.table] : Fragment β) ++ Token.text " ON " ::
        (j.outer.fragment ++ Token.text " = " :: j.inner.fragment)) :=
      (Fragment.Legible.name _).join (by decide) ((h.joins j hj).1.join (by decide) (h.joins j hj).2)
    have hline := Fragment.Legible.cons (isOpening_of_isWords (hjoins j hj))
      (Fragment.Legible.cons (s := " ") (by decide) hon)
    simpa [JoinOn.fragment] using hline
  · intro f hf
    obtain ⟨t, ht, rfl⟩ := List.mem_map.1 hf
    exact h.conditions t ht
  · intro f hf
    obtain ⟨t, ht, rfl⟩ := List.mem_map.1 hf
    exact h.groupBy t ht
  · intro f hf
    obtain ⟨k, hk, rfl⟩ := List.mem_map.1 hf
    exact (h.orderBy k hk).join (by decide) (.text (isWhole_of_isWords (hkeys k hk)))
  · intro n hn
    obtain ⟨m, -, rfl⟩ := Option.mem_map.1 hn
    exact isWhole_of_isWords (isWords_limitText m)

section Built

variable {ok : Method → Nat → Nat → Prop} {S : β → Prop}

/-- **What is built is legible.** -/
theorem Term.Built.legible {t : Term β} (h : t.Built ok S) : t.fragment.Legible := by
  induction h with
  | slot => exact .slot _
  | table name => exact .name _
  | allColumns table => exact (Fragment.Legible.name table).close (by decide)
  | column name steps _ ih =>
    have hname : Fragment.Legible (([Token.name name] : Fragment β) ++ Fragment.traversal steps) :=
      (Fragment.Legible.name name).append (Fragment.Legible.traversal steps).1 (Fragment.Legible.traversal steps).2
    exact ih.join (by decide) hname
  | countAll => exact .text (by decide)
  | labelled label _ ih => exact ih.join (by decide) (.name label)
  | list _ ih =>
    rw [Term.fragment, termFragments_eq_map]
    refine .separated (by decide) fun f hf => ?_
    obtain ⟨t, ht, rfl⟩ := List.mem_map.1 hf
    exact ih t ht
  | operation op _ _ ihl ihr => exact ihl.join (isSeparator_padded op) ihr
  | nullTest negated _ ih => exact ih.close (by cases negated <;> decide)
  | negation _ ih => exact .cons (by decide) (ih.close (by decide))
  | paren _ ih => exact ih.parenthesized
  | lengthOf _ ih => exact .cons (by decide) (ih.close (by decide))
  | @call method n arguments _ _ ih =>
    rw [Term.fragment, termFragments_eq_map, Template.expand_eq_splice, Method.fragment_ofMethod,
      Fragment.splice_map]
    refine (method.layout_legible n).splice fun i _ => ?_
    simp only [List.getD_eq_getElem?_getD, List.getElem?_map]
    cases hi : arguments[i]? with
    | none => exact .nil
    | some t => exact ih t (List.mem_of_getElem? hi)
  | @caseWhen arms otherwise _ _ _ ihg ihv iho =>
    have harm : ∀ a ∈ arms, a.fragment.Trailing := by
      intro a ha
      have hguards : (guardFragment (a.guards.map Term.fragment)).Legible := by
        refine guardFragment_legible fun f hf => ?_
        obtain ⟨t, ht, rfl⟩ := List.mem_map.1 hf
        exact ihg a ha t ht
      exact .cons (by decide) (hguards.join (by decide) (ihv a ha))
    have hcase : Fragment.Legible (.text "CASE" :: arms.flatMap Arm.fragment) := by
      refine .cons (by decide) ?_
      exact (Fragment.Trailing.flatMap harm).1
    rw [Term.fragment, armFragments_eq_flatMap]
    exact (hcase.join (by decide) iho).close (by decide)
  | groupCount table copy _ _ ihi iho =>
    have hwhere := ihi.join (s := " = ") (by decide) iho
    have hfrom := (Fragment.Legible.name table).join (s := " AS ") (by decide)
      ((Fragment.Legible.name copy).join (s := " WHERE ") (by decide) (hwhere.close (s := ")") (by decide)))
    have hall := Fragment.Legible.cons (s := "(SELECT COUNT(*) FROM ") (by decide) hfrom
    simpa [Term.fragment] using hall
  | subquery _ _ _ _ _ _ hj hk ihi iho ihn ihc ihg ihk =>
    exact (Select.legible ⟨ihi, fun j hj => ⟨iho j hj, ihn j hj⟩, ihc, ihg, ihk⟩ hj hk).parenthesized

/-- A built statement is legible without its parentheses. -/
theorem Select.legible_of_built {s : Select β} (h : (Term.subquery s).Built ok S) : s.frame.statement.Legible := by
  cases h with
  | subquery hi ho hn hc hg hk hj hkeys =>
    exact Select.legible ⟨hi.legible, fun j hj => ⟨(ho j hj).legible, (hn j hj).legible⟩, fun t ht => (hc t ht).legible,
      fun t ht => (hg t ht).legible, fun k h => (hk k h).legible⟩ hj hkeys

/-- The slots of what is built are of the given kind. -/
theorem Term.Built.of_mem_slots {t : Term β} (h : t.Built ok S) {b : β} (hb : b ∈ t.slots) : S b := by
  induction h with
  | slot hs =>
    rw [Term.slots, List.mem_singleton] at hb
    exact hb ▸ hs
  | table name | allColumns table | countAll => cases hb
  | column name steps _ ih => exact ih hb
  | labelled label _ ih => exact ih hb
  | nullTest negated _ ih => exact ih hb
  | negation _ ih | paren _ ih | lengthOf _ ih => exact ih hb
  | list _ ih | call _ _ ih =>
    rw [Term.slots, termSlots_eq_flatMap, List.mem_flatMap] at hb
    obtain ⟨t, ht, hb⟩ := hb
    exact ih t ht hb
  | operation op _ _ ihl ihr =>
    rw [Term.slots, List.mem_append] at hb
    exact hb.elim ihl ihr
  | groupCount table copy _ _ ihi iho =>
    rw [Term.slots, List.mem_append] at hb
    exact hb.elim ihi iho
  | caseWhen _ _ _ ihg ihv iho =>
    rw [Term.slots, armSlots_eq_flatMap, List.mem_append, List.mem_flatMap] at hb
    rcases hb with ⟨a, ha, hb⟩ | hb
    · rw [Arm.slots, List.mem_append, List.mem_flatMap] at hb
      rcases hb with ⟨t, ht, hb⟩ | hb
      · exact ihg a ha t ht hb
      · exact ihv a ha hb
    · exact iho hb
  | subquery _ _ _ _ _ _ _ _ ihi iho ihn ihc ihg ihk =>
    rw [Term.slots, Select.slots_eq] at hb
    simp only [List.mem_append, List.mem_flatMap] at hb
    rcases hb with (((hb | ⟨j, hj, hb⟩) | ⟨t, ht, hb⟩) | ⟨t, ht, hb⟩) | ⟨k, hk, hb⟩
    · exact ihi hb
    · rw [JoinOn.slots, List.mem_append] at hb
      exact hb.elim (iho j hj) (ihn j hj)
    · exact ihc t ht hb
    · exact ihg t ht hb
    · exact ihk k hk hb

/-- A term is built like its image. -/
theorem Term.Built.of_map {f : γ → β} {t : Term γ} (h : (t.map f).Built ok S) : t.Built ok fun c => S (f c) := by
  induction t using Term.induction with
  | slot c =>
    cases h with
    | slot hc => exact .slot hc
  | table name => exact .table name
  | allColumns table => exact .allColumns table
  | column qualifier name steps ih =>
    cases h with
    | column _ _ hq => exact .column _ _ (ih hq)
  | countAll => exact .countAll
  | labelled t label ih =>
    cases h with
    | labelled _ ht => exact .labelled _ (ih ht)
  | list items ih =>
    rw [Term.map_list] at h
    cases h with
    | list hitems => exact .list fun t ht => ih t ht (hitems _ (List.mem_map.2 ⟨t, ht, rfl⟩))
  | operation left op right ihl ihr =>
    cases h with
    | operation _ hl hr => exact .operation _ (ihl hl) (ihr hr)
  | nullTest t negated ih =>
    cases h with
    | nullTest _ ht => exact .nullTest _ (ih ht)
  | negation t ih =>
    cases h with
    | negation ht => exact .negation (ih ht)
  | paren t ih =>
    cases h with
    | paren ht => exact .paren (ih ht)
  | lengthOf t ih =>
    cases h with
    | lengthOf ht => exact .lengthOf (ih ht)
  | call template arguments ih =>
    rw [Term.map_call] at h
    cases h with
    | call hok hargs =>
      rw [List.length_map] at hok
      exact .call hok fun t ht => ih t ht (hargs _ (List.mem_map.2 ⟨t, ht, rfl⟩))
  | caseWhen arms otherwise iha iho =>
    rw [Term.map_caseWhen] at h
    cases h with
    | caseWhen hguards hvalues hotherwise =>
      refine .caseWhen (fun a ha t ht => (iha a ha).1 t ht (hguards _ (List.mem_map.2 ⟨a, ha, rfl⟩) _ ?_))
        (fun a ha => (iha a ha).2 (hvalues _ (List.mem_map.2 ⟨a, ha, rfl⟩))) (iho hotherwise)
      exact List.mem_map.2 ⟨t, ht, rfl⟩
  | groupCount table copy inner outer ihi iho =>
    cases h with
    | groupCount _ _ hi ho => exact .groupCount _ _ (ihi hi) (iho ho)
  | subquery s ih =>
    rw [Term.map_subquery, Select.map_eq] at h
    cases h with
    | subquery hitems houter hinner hconditions hgroups horder hjoins hkeys =>
      exact .subquery (ih.items hitems) (fun j hj => (ih.joins j hj).1 (houter _ (List.mem_map.2 ⟨j, hj, rfl⟩)))
        (fun j hj => (ih.joins j hj).2 (hinner _ (List.mem_map.2 ⟨j, hj, rfl⟩)))
        (fun t ht => ih.conditions t ht (hconditions _ (List.mem_map.2 ⟨t, ht, rfl⟩)))
        (fun t ht => ih.groupBy t ht (hgroups _ (List.mem_map.2 ⟨t, ht, rfl⟩)))
        (fun k hk => ih.orderBy k hk (horder _ (List.mem_map.2 ⟨k, hk, rfl⟩)))
        (fun j hj => hjoins (j.map f) (List.mem_map.2 ⟨j, hj, rfl⟩))
        (fun k hk => hkeys (k.map f) (List.mem_map.2 ⟨k, hk, rfl⟩))

end Built

/-! ## Slots in the text and slots visited -/

theorem slots_guardFragment (fs : List (Fragment β)) :
    Fragment.slots (guardFragment fs) = fs.flatMap Fragment.slots := by
  match fs with
  | [] => rfl
  | [f] => simp [guardFragment]
  | f :: g :: fs =>
    rw [guardFragment, Fragment.slots_separated, Fragment.flatMap_slots_parenthesized]
    exact fun _ h => by cases h

theorem Frame.slots_whereClause (fs : List (Fragment β)) :
    Fragment.slots (whereClause fs) = fs.flatMap Fragment.slots := by
  match fs with
  | [] => rfl
  | [f] => simp [whereClause, Token.slots]
  | f :: g :: fs =>
    simp only [whereClause, Fragment.slots_cons, Token.slots, List.nil_append, Fragment.slots_separated,
      Fragment.flatMap_slots_parenthesized]

theorem Frame.slots_listClause (keyword : String) (fs : List (Fragment β)) :
    Fragment.slots (listClause keyword fs) = fs.flatMap Fragment.slots := by
  cases fs <;> simp [listClause, Token.slots, Fragment.slots_separated]

/-- The slots of a statement, clause by clause. -/
theorem Frame.slots_statement (f : Frame β) :
    f.statement.slots = f.select.slots ++ f.source.slots ++ f.joins.flatMap Fragment.slots ++
      f.conditions.flatMap Fragment.slots ++ f.groupBy.flatMap Fragment.slots ++
      f.orderBy.flatMap Fragment.slots := by
  have hjoins : Fragment.slots (f.joins.flatMap (.text " " :: ·)) = f.joins.flatMap Fragment.slots := by
    induction f.joins with
    | nil => rfl
    | cons j js ih => simp [Token.slots, ih]
  have hdistinct : Fragment.slots (if f.distinct then [.text "DISTINCT "] else [] : Fragment β) = [] := by
    split <;> rfl
  rw [Frame.statement]
  simp only [Fragment.slots_append, Fragment.slots_cons, Token.slots, hjoins, slots_whereClause, slots_listClause,
    hdistinct, List.nil_append, List.append_assoc]
  cases f.limit <;> cases f.offset <;> simp [Token.slots]

/-- The fragments at the places of a permutation of their numbers. -/
theorem flatMap_getD_perm {α : Type} {l : List Nat} {xs : List (List α)}
    (h : (l.filter (· < xs.length)).Perm (List.range xs.length)) :
    (l.flatMap fun i => xs.getD i []).Perm xs.flatten := by
  have hfilter : ∀ l : List Nat, (l.flatMap fun i => xs.getD i []) =
      (l.filter (· < xs.length)).flatMap fun i => xs.getD i [] := by
    intro l
    induction l with
    | nil => rfl
    | cons i l ih =>
      rw [List.flatMap_cons, ih]
      by_cases hi : i < xs.length
      · simp [hi]
      · simp [hi]
  have hrange : ((List.range xs.length).map fun i => xs.getD i []) = xs := by
    refine List.ext_getElem (by simp) fun i h₁ h₂ => ?_
    simp [h₂]
  have hperm : ((l.filter (· < xs.length)).flatMap fun i => xs.getD i []).Perm
      ((List.range xs.length).flatMap fun i => xs.getD i []) := h.flatMap_right _
  rw [hfilter l]
  rw [List.flatMap_def (l := List.range _), hrange] at hperm
  exact hperm

/-- A relation between lists that can be put together from parts. -/
structure Compositional (R : List β → List β → Prop) : Prop where
  refl : ∀ l, R l l
  append : ∀ {a b c d}, R a b → R c d → R (a ++ c) (b ++ d)

theorem Compositional.flatMap {R : List β → List β → Prop} (hR : Compositional R) {α : Type} {l : List α}
    {f g : α → List β} (h : ∀ a ∈ l, R (f a) (g a)) : R (l.flatMap f) (l.flatMap g) := by
  induction l with
  | nil => exact hR.refl []
  | cons a l ih => exact hR.append (h a (by simp)) (ih fun b hb => h b (by simp [hb]))

theorem Select.slots_rel {R : List β → List β → Prop} (hR : Compositional R) {s : Select β}
    (h : s.All fun t => R t.fragment.slots t.slots) : R s.frame.statement.slots s.slots := by
  have hsource : s.sourceFragment.slots = [] := by
    unfold Select.sourceFragment
    cases s.schema <;> rfl
  rw [Frame.slots_statement, Select.frame_eq, Select.slots_eq]
  simp only [List.flatMap_map, hsource, List.append_nil]
  refine hR.append (hR.append (hR.append (hR.append h.items ?_) (hR.flatMap h.conditions)) (hR.flatMap h.groupBy)) ?_
  · refine hR.flatMap fun j hj => ?_
    simpa [JoinOn.fragment, JoinOn.slots, Token.slots] using hR.append (h.joins j hj).1 (h.joins j hj).2
  · refine hR.flatMap fun k hk => ?_
    simpa [SortTerm.fragment, Token.slots] using h.orderBy k hk

/-- The slots in the text and the slots that are visited, in a relation that
the templates of calls respect. -/
theorem Term.Built.slots_rel {ok : Method → Nat → Nat → Prop} {S : β → Prop} {R : List β → List β → Prop}
    (hR : Compositional R)
    (hcall : ∀ m n (xs : List (List β)), ok m n xs.length →
      R ((m.layout n).slots.flatMap fun i => xs.getD i []) xs.flatten)
    (htrans : ∀ {a b c}, R a b → R b c → R a c) {t : Term β} (h : t.Built ok S) : R t.fragment.slots t.slots := by
  induction h with
  | slot | table name | allColumns table | countAll => exact hR.refl _
  | column name steps _ ih => simpa [Term.fragment, Term.slots, Token.slots, Fragment.slots_traversal] using ih
  | labelled label _ ih => simpa [Term.fragment, Term.slots, Token.slots] using ih
  | list _ ih =>
    rw [Term.fragment, Term.slots, termFragments_eq_map, termSlots_eq_flatMap, Fragment.slots_separated,
      List.flatMap_map]
    exact hR.flatMap ih
  | operation op _ _ ihl ihr => simpa [Term.fragment, Term.slots, Token.slots] using hR.append ihl ihr
  | nullTest negated _ ih => simpa [Term.fragment, Term.slots, Token.slots] using ih
  | negation _ ih => simpa [Term.fragment, Term.slots, Token.slots] using ih
  | paren _ ih => simpa [Term.fragment, Term.slots, Fragment.slots_parenthesized] using ih
  | lengthOf _ ih => simpa [Term.fragment, Term.slots, Token.slots] using ih
  | @call method n arguments hok _ ih =>
    have hplaces := hcall method n ((arguments.map Term.fragment).map Fragment.slots) (by simpa using hok)
    have hargs : R ((arguments.map Term.fragment).map Fragment.slots).flatten (arguments.flatMap Term.slots) := by
      rw [List.map_map, ← List.flatMap_def]
      exact hR.flatMap ih
    rw [Term.fragment, Term.slots, termFragments_eq_map, termSlots_eq_flatMap, Template.expand_eq_splice,
      Method.fragment_ofMethod, Fragment.splice_map, Fragment.slots_splice]
    have hsame : ((method.layout n).slots.flatMap fun i =>
        Fragment.slots ((arguments.map Term.fragment).getD i [])) =
        (method.layout n).slots.flatMap fun i => ((arguments.map Term.fragment).map Fragment.slots).getD i [] := by
      refine List.flatMap_congr fun i _ => ?_
      simp only [List.getD_eq_getElem?_getD, List.getElem?_map]
      cases arguments[i]? <;> rfl
    exact hsame ▸ htrans hplaces hargs
  | @caseWhen arms otherwise _ _ _ ihg ihv iho =>
    have harms : R (Fragment.slots (arms.flatMap Arm.fragment)) (arms.flatMap Arm.slots) := by
      rw [Fragment.slots_flatMap]
      refine hR.flatMap fun a ha => ?_
      have harm := hR.append (hR.flatMap (ihg a ha)) (ihv a ha)
      simpa [Arm.fragment, Arm.slots, Token.slots, slots_guardFragment, List.flatMap_map] using harm
    rw [Term.fragment, Term.slots, armFragments_eq_flatMap, armSlots_eq_flatMap]
    simpa [Token.slots] using hR.append harms iho
  | groupCount table copy _ _ ihi iho =>
    simpa [Term.fragment, Term.slots, Token.slots] using hR.append ihi iho
  | subquery _ _ _ _ _ _ _ _ ihi iho ihn ihc ihg ihk =>
    rw [Term.fragment, Term.slots, Fragment.slots_parenthesized]
    exact Select.slots_rel hR ⟨ihi, fun j hj => ⟨iho j hj, ihn j hj⟩, ihc, ihg, ihk⟩

/-- **Slots are written as often as they are visited**, though not always in
the same order, when calls use each argument once. -/
theorem Term.Built.slots_perm {ok : Method → Nat → Nat → Prop} {S : β → Prop} {t : Term β}
    (hok : ∀ m n k, ok m n k → Woven (m.layout n) k) (h : t.Built ok S) : t.fragment.slots.Perm t.slots :=
  h.slots_rel ⟨.refl, .append⟩ (fun m n _ hxs => flatMap_getD_perm (hok m n _ hxs)) .trans

/-- Whatever the arguments of calls are, the text has no slots but those that
are visited. -/
theorem Term.Built.slots_subset {ok : Method → Nat → Nat → Prop} {S : β → Prop} {t : Term β} (h : t.Built ok S) :
    t.fragment.slots ⊆ t.slots := by
  refine h.slots_rel ⟨List.Subset.refl, fun hab hcd => ?_⟩ (fun m n xs _ b hb => ?_) List.Subset.trans
  · exact List.append_subset.2 ⟨List.subset_append_of_subset_left _ hab, List.subset_append_of_subset_right _ hcd⟩
  · obtain ⟨i, -, hb⟩ := List.mem_flatMap.1 hb
    rw [List.getD_eq_getElem?_getD] at hb
    cases hi : xs[i]? with
    | none => simp [hi] at hb
    | some x =>
      rw [hi] at hb
      exact List.mem_flatten.2 ⟨x, List.mem_of_getElem? hi, hb⟩

/-- The same of a statement without its parentheses. -/
theorem Select.slots_perm_of_built {ok : Method → Nat → Nat → Prop} {S : β → Prop} {s : Select β}
    (hok : ∀ m n k, ok m n k → Woven (m.layout n) k) (h : (Term.subquery s).Built ok S) :
    s.frame.statement.slots.Perm s.slots := by
  have hperm := h.slots_perm hok
  rw [Term.fragment, Term.slots, Fragment.slots_parenthesized] at hperm
  exact hperm

theorem Select.slots_subset_of_built {ok : Method → Nat → Nat → Prop} {S : β → Prop} {s : Select β}
    (h : (Term.subquery s).Built ok S) : s.frame.statement.slots ⊆ s.slots := by
  have hsubset := h.slots_subset
  rw [Term.fragment, Term.slots, Fragment.slots_parenthesized] at hsubset
  exact hsubset

end ParamQuery.Sql

/-! ## Emission -/

namespace ParamQuery

/-- A property of every test and every leaf of a tree. -/
def Sql.Decision.All {α : Type} (P : α → Prop) : Sql.Decision α → Prop
  | .leaf value => P value
  | .test condition ifTrue ifFalse => P condition ∧ ifTrue.All P ∧ ifFalse.All P

theorem Sql.Decision.All.flattenUnder {α : Type} {P : α → Prop} {d : Sql.Decision α} (h : d.All P)
    {guards : List α} (hg : ∀ g ∈ guards, P g) :
    (∀ arm ∈ (d.flattenUnder guards).1, (∀ g ∈ arm.1, P g) ∧ P arm.2) ∧ P (d.flattenUnder guards).2 := by
  induction d generalizing guards with
  | leaf value => exact ⟨by simp [Sql.Decision.flattenUnder], h⟩
  | test condition ifTrue ifFalse ihT ihF =>
    obtain ⟨hc, hT, hF⟩ := h
    have hinner : ∀ g ∈ guards ++ [condition], P g := by
      intro g hmem
      rcases List.mem_append.1 hmem with hmem | hmem
      · exact hg g hmem
      · exact List.mem_singleton.1 hmem ▸ hc
    obtain ⟨harms, hvalue⟩ := ihT hT hinner
    obtain ⟨harms', hvalue'⟩ := ihF hF hg
    refine ⟨fun arm harm => ?_, hvalue'⟩
    simp only [Sql.Decision.flattenUnder, List.mem_append, List.mem_cons] at harm
    rcases harm with harm | rfl | harm
    · exact harms arm harm
    · exact ⟨hinner, hvalue⟩
    · exact harms' arm harm

section Emission

variable {ok : Method → Nat → Nat → Prop} {S : Slot → Prop}

theorem caseTerm_built {d : Sql.Decision (Sql.Term Slot)} (h : d.All (Sql.Term.Built ok S)) :
    (caseTerm d).Built ok S := by
  cases d with
  | leaf t => exact h
  | test condition ifTrue ifFalse =>
    obtain ⟨harms, hvalue⟩ := h.flattenUnder (List.forall_mem_nil _)
    refine .caseWhen (fun a ha => ?_) (fun a ha => ?_) hvalue
    · obtain ⟨arm, harm, rfl⟩ := List.mem_map.1 ha
      exact (harms arm harm).1
    · obtain ⟨arm, harm, rfl⟩ := List.mem_map.1 ha
      exact (harms arm harm).2

theorem parenIf_built {t : Sql.Term Slot} (h : t.Built ok S) (wrap : Bool) : (parenIf wrap t).Built ok S := by
  cases wrap
  · exact h
  · exact .paren h

theorem memberTerm_built (hreject : ∀ e, S (.reject e)) {sc : Scope} {own : Option String}
    {qualifier : Sql.Term Slot} (hq : qualifier.Built ok S) (path : List String) (m : Mode) :
    (memberTerm sc own qualifier path m).tree.All (Sql.Term.Built ok S) := by
  have hcolumn : ∀ path, (columnTerm sc own qualifier path).Built ok S := by
    intro path
    unfold columnTerm
    split
    · exact .slot (hreject _)
    · split
      · exact .column _ _ hq
      · split
        · refine .list fun t ht => ?_
          simp only [List.mem_cons, List.not_mem_nil, or_false] at ht
          rcases ht with rfl | rfl
          · exact hq
          · exact .slot (hreject _)
        · exact .column _ _ hq
  have hlengths : ∀ n (t : Sql.Term Slot), t.Built ok S → (lengths n t).Built ok S := by
    intro n t ht
    induction n with
    | zero => exact ht
    | succ n ih => exact .lengthOf ih
  have hlabel : ∀ t : Sql.Term Slot, t.Built ok S → (labelIf m path t).Built ok S := by
    intro t ht
    unfold labelIf
    split
    · exact .labelled _ ht
    · exact ht
  exact hlabel _ (hlengths _ _ (hcolumn _))

/-- What a term needs of the expressions inside the one that it is emitted for:
of the calls, and of the filters of the queries. -/
def Expr.Fits (ok : Method → Nat → Nat → Prop) (S : Slot → Prop) (table : Table) : Expr → Prop
  | .call method receiver arguments => ok method arguments.length (callArity method receiver arguments)
  | .subquery q => ∀ f ∈ q.filters, S (.filter (f.command table (some (q.tableName table))))
  | _ => True

variable {table : Table}

/-- The emission of an expression is built, whatever its place. -/
def EmitBuilt (ok : Method → Nat → Nat → Prop) (S : Slot → Prop) (table : Table) (e : Expr) : Prop :=
  (∀ x ∈ e.subterms, x.Fits ok S table) → ∀ (sc : Scope) (m : Mode) (beside : Bool), sc.table = table →
    (e.emit sc m beside).tree.All (Sql.Term.Built ok S)

theorem EmitBuilt.term {e : Expr} (h : EmitBuilt ok S table e) (hfits : ∀ x ∈ e.subterms, x.Fits ok S table)
    (sc : Scope) (hsc : sc.table = table) (m : Mode) (beside : Bool) : (e.emit sc m beside).term.Built ok S :=
  caseTerm_built (h hfits sc m beside hsc)

theorem Source.emit_built {s : Source} (ih : s.All (EmitBuilt ok S table))
    (hfits : ∀ x ∈ s.subterms, x.Fits ok S table) {sc : Scope} (hsc : sc.table = table) (m : Mode)
    (beside : Bool) : (s.emit sc m beside).tree.All (Sql.Term.Built ok S) := by
  have hkeys := Source.all_of_subterms hfits
  obtain ⟨typeName, members, own, groupJoin⟩ := s
  cases groupJoin with
  | none =>
    simp only [Source.emit]
    split
    · exact .table _
    · show (sourceTerm _ _).Built ok S
      unfold sourceTerm
      split
      · exact .allColumns _
      · refine .list fun t ht => ?_
        obtain ⟨c, -, rfl⟩ := List.mem_map.1 ht
        exact .column _ _ (.table _)
  | some g =>
    obtain ⟨outer, inner⟩ := g
    obtain ⟨ihO, ihI⟩ := ih _ rfl
    obtain ⟨hO, hI⟩ := hkeys _ rfl
    show (groupJoinTerm _ _ _ _ _).Built ok S
    refine .list fun t ht => ?_
    simp only [List.mem_cons, List.not_mem_nil, or_false] at ht
    rcases ht with rfl | rfl
    · refine .list fun t ht => ?_
      obtain ⟨c, -, rfl⟩ := List.mem_map.1 ht
      exact .labelled _ (.column _ _ (.table _))
    · exact .labelled _ (.groupCount _ _
        (ihI.term hI { sc with qualifier := some ("temp_" ++ sc.tableName own) } hsc _ _) (ihO.term hO _ hsc _ _))

theorem Query.emit_built {q : Query} (ih : q.All (EmitBuilt ok S table))
    (hfits : ∀ x ∈ q.subterms, x.Fits ok S table) (hown : (Expr.subquery q).Fits ok S table) {sc : Scope}
    (hsc : sc.table = table) : (Sql.Term.subquery (q.emit sc)).Built ok S := by
  have hparts := Query.all_of_subterms hfits
  have hscope : (q.scope sc).table = table := hsc
  have hsource : ∀ x ∈ q.source.subterms, x.Fits ok S table := by
    intro x hx
    refine hfits x ?_
    rw [Query.subterms_eq]
    simp [hx]
  rw [Query.emit_eq]
  refine .subquery ?_ ?_ ?_ ?_ ?_ ?_ ?_ ?_
  · show (q.emitItems (q.scope sc)).Built ok S
    unfold Query.emitItems
    split
    · exact .countAll
    · split
      · rename_i e he
        exact (ih.selector e he).term (hparts.selector e he) _ hscope _ _
      · exact caseTerm_built (Source.emit_built ih.source hsource hscope _ _)
  · intro j hj
    obtain ⟨k, hk, rfl⟩ := List.mem_map.1 hj
    exact (ih.joins k hk).1.term (hparts.joins k hk).1 _ hscope _ _
  · intro j hj
    obtain ⟨k, hk, rfl⟩ := List.mem_map.1 hj
    exact (ih.joins k hk).2.term (hparts.joins k hk).2 _ hscope _ _
  · intro t ht
    rcases List.mem_append.1 ht with ht | ht
    · obtain ⟨e, he, rfl⟩ := List.mem_map.1 ht
      exact (ih.conditions e he).term (hparts.conditions e he) _ hscope _ _
    · obtain ⟨f, hf, rfl⟩ := List.mem_map.1 ht
      exact .slot (by rw [hsc]; exact hown f hf)
  · intro t ht
    obtain ⟨e, he, rfl⟩ := List.mem_map.1 ht
    exact (ih.groupBy e he).term (hparts.groupBy e he) _ hscope _ _
  · intro k hk
    obtain ⟨l, hl, rfl⟩ := List.mem_map.1 hk
    exact (ih.orderBy l hl).term (hparts.orderBy l hl) _ hscope _ _
  · intro j hj
    obtain ⟨k, -, rfl⟩ := List.mem_map.1 hj
    show Sql.isWords k.kind.keyword
    cases k.kind <;> decide
  · intro k hk
    obtain ⟨l, -, rfl⟩ := List.mem_map.1 hk
    show Sql.isWords l.direction.keyword
    cases l.direction <;> decide

theorem emitEach_built {es : List Expr} (ih : ∀ e ∈ es, EmitBuilt ok S table e)
    (hfits : ∀ x ∈ listSubterms es, x.Fits ok S table) {sc : Scope} (hsc : sc.table = table) (m : Mode)
    (beside : Bool) : ∀ t ∈ emitEach es sc m beside, t.Built ok S := by
  rw [emitEach_eq_map]
  intro t ht
  obtain ⟨e, he, rfl⟩ := List.mem_map.1 ht
  refine (ih e he).term (fun x hx => hfits x ?_) _ hsc _ _
  rw [listSubterms_eq_flatMap]
  exact List.mem_flatMap.2 ⟨e, he, hx⟩

/-- **Emission builds its terms** from the templates of methods, from keywords
and from slots. -/
theorem Expr.emit_built (hvalue : ∀ v asText, S (.value v asText)) (hreject : ∀ e, S (.reject e)) (e : Expr) :
    EmitBuilt ok S table e := by
  induction e using Expr.induction with
  | source s ih =>
    intro hfits sc m beside hsc
    refine Source.emit_built ih (fun x hx => hfits x ?_) hsc m beside
    simp [Expr.subterms, hx]
  | subquery q ih =>
    intro hfits sc m beside hsc
    refine Query.emit_built ih (fun x hx => hfits x ?_) (hfits _ (Expr.mem_subterms_self _)) hsc
    simp [Expr.subterms, hx]
  | binary op left right ihl ihr =>
    intro hfits sc m beside hsc
    have hl := ihl.term (fun x hx => hfits x (by simp [Expr.subterms, hx])) sc hsc
    have hr := ihr.term (fun x hx => hfits x (by simp [Expr.subterms, hx])) sc hsc
    simp only [Expr.emit]
    split
    · exact .nullTest _ (parenIf_built (hl _ _) _)
    · split
      · exact .nullTest _ (parenIf_built (hr _ _) _)
      · exact .operation _ (parenIf_built (hl _ _) _) (parenIf_built (hr _ _) _)
  | conditional test ifTrue ifFalse iht iha ihb =>
    intro hfits sc m beside hsc
    exact ⟨iht.term (fun x hx => hfits x (by simp [Expr.subterms, hx])) sc hsc _ _,
      iha (fun x hx => hfits x (by simp [Expr.subterms, hx])) sc _ _ hsc,
      ihb (fun x hx => hfits x (by simp [Expr.subterms, hx])) sc _ _ hsc⟩
  | constant value =>
    intro hfits sc m beside hsc
    exact .slot (hvalue _ _)
  | member root path type ih =>
    intro hfits sc m beside hsc
    simp only [Expr.emit]
    split
    · exact .slot (hreject _)
    · refine memberTerm_built hreject ?_ _ _
      cases root with
      | none => exact .table _
      | some s =>
        refine caseTerm_built (Source.emit_built (ih s rfl) (fun x hx => hfits x ?_) hsc _ _)
        simp [Expr.subterms, rootSubterms, hx]
  | call method receiver arguments ihr iha =>
    intro hfits sc m beside hsc
    have hcall : ok method arguments.length (callArity method receiver arguments) :=
      hfits _ (Expr.mem_subterms_self _)
    have hargs := fun m beside => emitEach_built iha (fun x hx => hfits x (by simp [Expr.subterms, hx])) hsc m beside
    have hlength : ∀ m beside, (emitEach arguments sc m beside).length = arguments.length := by
      intro m beside
      rw [emitEach_eq_map, List.length_map]
    simp only [Expr.emit]
    split
    · rename_i hconcat
      refine .call ?_ fun t ht => ?_
      · simpa [callArity, hconcat] using hcall
      · rw [List.mem_singleton.1 ht]
        exact .list (hargs _ _)
    · rename_i hconcat
      simp only [callArity, hconcat, if_false] at hcall
      cases receiver with
      | none =>
        refine .call ?_ (hargs _ _)
        rw [hlength]
        simpa using hcall
      | some r =>
        refine .call ?_ fun t ht => ?_
        · rw [List.length_cons, hlength, Nat.add_comm]
          simpa using hcall
        · rcases List.mem_cons.1 ht with rfl | ht
          · refine (ihr r rfl).term (fun x hx => hfits x ?_) _ hsc _ _
            simp [Expr.subterms, optionSubterms, hx]
          · exact hargs _ _ t ht
  | project items ih =>
    intro hfits sc m beside hsc
    simp only [Expr.emit]
    split
    · exact .slot (hreject _)
    · exact .list (emitEach_built ih (fun x hx => hfits x (by simp [Expr.subterms, hx])) hsc _ _)
  | unary op operand ih =>
    intro hfits sc m beside hsc
    have hoperand := ih.term (fun x hx => hfits x (by simp [Expr.subterms, hx])) sc hsc
    cases op with
    | not => exact .negation (hoperand _ _)
    | convert | typeAs => exact hoperand _ _

end Emission

end ParamQuery
