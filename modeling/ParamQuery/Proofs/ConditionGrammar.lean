/-
Reading SQL conditions. `brackets` gathers what stands in parentheses, and
`readCondition` takes the parts of a condition apart at `OR`, then at `AND`, then
at a leading `NOT`; the `AND` of a `BETWEEN` and what stands inside a `CASE`
separate nothing. What is left are the atoms.

Conditions in parentheses with a connective between them are read one by one
(`readCondition_all`, `readCondition_any`), and words without connectives are one
atom (`readCondition_quiet`, `readCondition_between`).
-/
import ParamQuery.Proofs.CallOperands
import ParamQuery.Proofs.CaseArms

namespace ParamQuery.Sql

/-! ## Truth values -/

namespace Truth

/-- What is true beside anything is true; otherwise the unknown wins. -/
def or : Truth → Truth → Truth
  | .yes, _ | _, .yes => .yes
  | .no, t => t
  | .unknown, _ => .unknown

/-- The negation; what is unknown stays so. -/
def not : Truth → Truth
  | .yes => .no
  | .no => .yes
  | .unknown => .unknown

/-- The disjunction of a list. That of none is false. -/
def any (ts : List Truth) : Truth := ts.foldr Truth.or .no

theorem all_singleton (t : Truth) : all [t] = t := by cases t <;> rfl

theorem any_singleton (t : Truth) : any [t] = t := by cases t <;> rfl

end Truth

/-! ## Formulas -/

/-- Conditions made of atoms. The conjunction of nothing is true, and the
disjunction of nothing false. -/
inductive Formula (α : Type) where
  | atom (a : α)
  | all (items : List (Formula α))
  | any (items : List (Formula α))
  | not (φ : Formula α)

namespace Formula

variable {α β : Type}

mutual
/-- The truth value of a formula, given those of its atoms. -/
def value (v : α → Truth) : Formula α → Truth
  | .atom a => v a
  | .all items => Truth.all (values v items)
  | .any items => Truth.any (values v items)
  | .not φ => (value v φ).not
/-- The truth values of some formulas, in order. -/
def values (v : α → Truth) : List (Formula α) → List Truth
  | [] => []
  | φ :: rest => value v φ :: values v rest
end

mutual
/-- The formula with its atoms replaced. -/
def map (g : α → β) : Formula α → Formula β
  | .atom a => .atom (g a)
  | .all items => .all (mapEach g items)
  | .any items => .any (mapEach g items)
  | .not φ => .not (map g φ)
/-- Some formulas, each with its atoms changed. -/
def mapEach (g : α → β) : List (Formula α) → List (Formula β)
  | [] => []
  | φ :: rest => map g φ :: mapEach g rest
end

theorem values_eq_map (v : α → Truth) (items : List (Formula α)) : values v items = items.map (value v) := by
  induction items with
  | nil => rfl
  | cons φ items ih => simp [values, ih]

theorem mapEach_eq_map (g : α → β) (items : List (Formula α)) : mapEach g items = items.map (map g) := by
  induction items with
  | nil => rfl
  | cons φ items ih => simp [mapEach, ih]

/-- The conjunction of formulas, a single one as it is. -/
def conj : List (Formula α) → Formula α
  | [φ] => φ
  | items => .all items

/-- The disjunction of formulas, a single one as it is. -/
def disj : List (Formula α) → Formula α
  | [φ] => φ
  | items => .any items

theorem value_conj (v : α → Truth) (items : List (Formula α)) :
    (conj items).value v = Truth.all (items.map (value v)) := by
  match items with
  | [] => rfl
  | [φ] => exact (Truth.all_singleton _).symm
  | φ :: ψ :: items => simp [conj, value, values_eq_map]

theorem value_disj (v : α → Truth) (items : List (Formula α)) :
    (disj items).value v = Truth.any (items.map (value v)) := by
  match items with
  | [] => rfl
  | [φ] => exact (Truth.any_singleton _).symm
  | φ :: ψ :: items => simp [disj, value, values_eq_map]

theorem map_conj (g : α → β) (items : List (Formula α)) : (conj items).map g = conj (items.map (map g)) := by
  match items with
  | [] => rfl
  | [φ] => rfl
  | φ :: ψ :: items => simp [conj, map, mapEach_eq_map]

theorem map_disj (g : α → β) (items : List (Formula α)) : (disj items).map g = disj (items.map (map g)) := by
  match items with
  | [] => rfl
  | [φ] => rfl
  | φ :: ψ :: items => simp [disj, map, mapEach_eq_map]

end Formula

/-! ## Parentheses -/

/-- A word, or what stands in parentheses. -/
inductive Part where
  | word (w : Word)
  | group (parts : List Part)

/-- Put a part behind those of the innermost parentheses. -/
def push (p : Part) : List (List Part) → Option (List (List Part))
  | [] => none
  | ps :: stack => some ((ps ++ [p]) :: stack)

/-- Take a word, with the parts of the open parentheses on a stack. -/
def bracket : List (List Part) → Word → Option (List (List Part))
  | [], _ => none
  | ps :: stack, w =>
    if w = .plain "(" then some ([] :: ps :: stack)
    else if w = .plain ")" then push (.group ps) stack
    else push (.word w) (ps :: stack)

/-- The parts of words, `none` when the parentheses do not match. -/
def brackets (ws : List Word) : Option (List Part) :=
  match ws.foldlM bracket [[]] with
  | some [ps] => some ps
  | _ => none

/-- The stack with something underneath: the outermost parts stand behind those
of the innermost level below. -/
def onTop (qs : List Part) (below : List (List Part)) : List (List Part) → List (List Part)
  | [] => below
  | [ps] => (qs ++ ps) :: below
  | ps :: stack => ps :: onTop qs below stack

theorem push_onTop {stack stack' : List (List Part)} {p : Part} (h : push p stack = some stack') (qs : List Part)
    (below : List (List Part)) : push p (onTop qs below stack) = some (onTop qs below stack') := by
  cases stack with
  | nil => cases h
  | cons ps stack =>
    cases h
    cases stack with
    | nil => simp [onTop, push]
    | cons rs stack => simp [onTop, push]

theorem bracket_onTop {stack stack' : List (List Part)} {w : Word} (h : bracket stack w = some stack')
    (qs : List Part) (below : List (List Part)) :
    bracket (onTop qs below stack) w = some (onTop qs below stack') := by
  cases stack with
  | nil => cases h
  | cons ps stack =>
    rw [bracket] at h
    split at h
    · rename_i hopen
      cases h
      cases stack <;> simp [onTop, bracket, hopen]
    · rename_i hopen
      split at h
      · rename_i hclose
        cases stack with
        | nil => cases h
        | cons rs stack =>
          rw [onTop, bracket, if_neg hopen, if_pos hclose, push_onTop h]
          simp
      · rename_i hclose
        cases stack with
        | nil =>
          rw [onTop, bracket, if_neg hopen, if_neg hclose]
          exact push_onTop h qs below
        | cons rs stack =>
          have hpush := push_onTop h qs below
          rw [onTop] at hpush ⊢
          · rw [bracket, if_neg hopen, if_neg hclose, hpush]
          all_goals simp

theorem foldlM_bracket_onTop {ws : List Word} {stack stack' : List (List Part)}
    (h : ws.foldlM bracket stack = some stack') (qs : List Part) (below : List (List Part)) :
    ws.foldlM bracket (onTop qs below stack) = some (onTop qs below stack') := by
  induction ws generalizing stack with
  | nil =>
    cases h
    rfl
  | cons w ws ih =>
    rw [List.foldlM_cons] at h ⊢
    obtain ⟨mid, hmid, hrest⟩ := Option.bind_eq_some_iff.1 h
    rw [bracket_onTop hmid]
    exact ih hrest

/-- What is open around words does not matter to them. -/
theorem foldlM_bracket {ws : List Word} {ps : List Part} (h : brackets ws = some ps) (qs : List Part)
    (below : List (List Part)) : ws.foldlM bracket (qs :: below) = some ((qs ++ ps) :: below) := by
  have hrun : ws.foldlM bracket [[]] = some [ps] := by
    unfold brackets at h
    split at h
    · rename_i hrun
      cases h
      exact hrun
    · cases h
  have htop := foldlM_bracket_onTop hrun qs below
  simpa [onTop] using htop

theorem brackets_append {ws ws' : List Word} {ps ps' : List Part} (h : brackets ws = some ps)
    (h' : brackets ws' = some ps') : brackets (ws ++ ws') = some (ps ++ ps') := by
  have hrun : (ws ++ ws').foldlM bracket [[]] = some [ps ++ ps'] := by
    rw [List.foldlM_append, foldlM_bracket h]
    exact foldlM_bracket h' _ _
  rw [brackets, hrun]

theorem brackets_group {ws : List Word} {ps : List Part} (h : brackets ws = some ps) :
    brackets (Word.plain "(" :: (ws ++ [Word.plain ")"])) = some [.group ps] := by
  have hrun : (Word.plain "(" :: (ws ++ [Word.plain ")"])).foldlM bracket [[]] = some [[.group ps]] := by
    rw [List.foldlM_cons]
    change (ws ++ [Word.plain ")"]).foldlM bracket [[], []] = _
    rw [List.foldlM_append, foldlM_bracket h]
    rfl
  rw [brackets, hrun]

/-- A word lowers the stack as it lowers the depth. -/
theorem exists_bracket {w : Word} {stack : List (List Part)} {a b : Nat} (h : w.nest a = some b)
    (hstack : stack.length = a + 1) : ∃ stack', bracket stack w = some stack' ∧ stack'.length = b + 1 := by
  obtain ⟨ps, stack, rfl⟩ := List.exists_cons_of_length_eq_add_one hstack
  have hlength : stack.length = a := by simpa using hstack
  cases w with
  | quoted quote content | parameter sigil name =>
    cases h
    exact ⟨_, rfl, hstack⟩
  | plain s =>
    rw [Word.nest] at h
    split at h
    · rename_i hs
      cases h
      exact ⟨[] :: ps :: stack, by simp [bracket, hs], by simp [hlength]⟩
    · rename_i hopen
      split at h
      · rename_i hs
        split at h
        · cases h
        · cases h
          obtain ⟨qs, stack, rfl⟩ : ∃ qs stack', stack = qs :: stack' :=
            List.exists_cons_of_ne_nil (by rintro rfl; simp at hlength; omega)
          refine ⟨(qs ++ [Part.group ps]) :: stack, by simp [bracket, push, hs], ?_⟩
          simp only [List.length_cons] at hlength ⊢
          omega
      · rename_i hclose
        cases h
        exact ⟨(ps ++ [Part.word (Word.plain s)]) :: stack, by simp [bracket, push, hopen, hclose], by simp [hlength]⟩

/-- Words whose parentheses match have parts. -/
theorem exists_brackets {ws : List Word} (h : ws.foldlM Word.nest 0 = some 0) : ∃ ps, brackets ws = some ps := by
  have hrun : ∀ (ws : List Word) (a b : Nat) (stack : List (List Part)), ws.foldlM Word.nest a = some b →
      stack.length = a + 1 → ∃ stack', ws.foldlM bracket stack = some stack' ∧ stack'.length = b + 1 := by
    intro ws
    induction ws with
    | nil =>
      intro a b stack h hstack
      cases h
      exact ⟨stack, rfl, hstack⟩
    | cons w ws ih =>
      intro a b stack h hstack
      rw [List.foldlM_cons] at h
      obtain ⟨c, hc, hrest⟩ := Option.bind_eq_some_iff.1 h
      obtain ⟨mid, hmid, hlength⟩ := exists_bracket hc hstack
      obtain ⟨stack', hstack', hlength'⟩ := ih c b mid hrest hlength
      refine ⟨stack', ?_, hlength'⟩
      rw [List.foldlM_cons, hmid]
      exact hstack'
  obtain ⟨stack, hstack, hlength⟩ := hrun ws 0 0 [[]] h rfl
  obtain ⟨ps, rfl⟩ := List.length_eq_one_iff.1 hlength
  exact ⟨ps, by rw [brackets, hstack]⟩

/-! ## Conditions -/

/-- Whether a part is the given keyword; its case does not matter. -/
def Part.isWord (keyword : String) : Part → Bool
  | .word (.plain s) => s.toList.map Char.toUpper == keyword.toList
  | _ => false

/-- Whether parts begin like a statement. -/
def opensStatement (ps : List Part) : Bool := ps.head?.any (Part.isWord "SELECT")

/-- An operand without connectives: a single part says what it says on its own,
and behind a `NOT` stands what is negated. -/
def readOperand : List (Part × Formula (List Part)) → Formula (List Part)
  | [] => .atom []
  | [(_, φ)] => φ
  | (p, _) :: rest => if p.isWord "NOT" then .not (readOperand rest) else .atom (p :: rest.map (·.1))

/-- How far a condition has been read. -/
structure Level where
  /-- The disjuncts that are complete. -/
  any : List (Formula (List Part)) := []
  /-- The conjuncts of the current disjunct that are complete. -/
  all : List (Formula (List Part)) := []
  /-- The parts of the current operand, each with what it says on its own. -/
  operand : List (Part × Formula (List Part)) := []
  /-- Whether the next `AND` belongs to a `BETWEEN`. -/
  between : Bool := false
  /-- How many `CASE`s are open. -/
  cases : Nat := 0

namespace Level

/-- The conjunction that ends with the operand. -/
def disjunct (v : Level) : Formula (List Part) := .conj (v.all ++ [readOperand v.operand])

/-- What has been read, if nothing comes behind it. -/
def result (v : Level) : Formula (List Part) := .disj (v.any ++ [v.disjunct])

/-- Take a part, given what it says on its own. -/
def put (v : Level) (p : Part) (φ : Formula (List Part)) : Level :=
  if v.cases = 0 ∧ v.between = false ∧ p.isWord "AND" then
    { v with all := v.all ++ [readOperand v.operand], operand := [] }
  else if v.cases = 0 ∧ p.isWord "OR" then
    { v with any := v.any ++ [v.disjunct], all := [], operand := [], between := false }
  else
    { v with
      operand := v.operand ++ [(p, φ)]
      between := if v.cases = 0 then (v.between || p.isWord "BETWEEN") && !p.isWord "AND" else v.between
      cases := if p.isWord "CASE" then v.cases + 1 else if p.isWord "END" then v.cases - 1 else v.cases }

end Level

mutual
/-- What a part says on its own. A statement in parentheses is a value. -/
def Part.formula : Part → Formula (List Part)
  | .word w =>
    if (Part.word w).isWord "TRUE" then .all []
    else if (Part.word w).isWord "FALSE" then .any []
    else .atom [.word w]
  | .group ps =>
    if opensStatement ps then .atom [.group ps] else (readParts ps {}).result
/-- Read the parts one after another. -/
def readParts : List Part → Level → Level
  | [], v => v
  | p :: ps, v => readParts ps (v.put p p.formula)
end

/-- The formula that a condition is read as. -/
def readCondition (ps : List Part) : Formula (List Part) := (readParts ps {}).result

theorem readParts_append (ps qs : List Part) (v : Level) :
    readParts (ps ++ qs) v = readParts qs (readParts ps v) := by
  induction ps generalizing v with
  | nil => rfl
  | cons p ps ih => rw [List.cons_append, readParts, readParts, ih]

theorem Part.formula_group {ps : List Part} (h : opensStatement ps = false) :
    (Part.group ps).formula = readCondition ps := by
  rw [Part.formula, h]
  rfl

/-! ## Atoms -/

/-- Whether a part is none of the keywords. -/
def Part.isFree (keywords : List String) (p : Part) : Bool := keywords.all fun keyword => !p.isWord keyword

/-- Parts that are none of the keywords. -/
def FreeOf (keywords : List String) (ps : List Part) : Prop := ps.all (Part.isFree keywords) = true

/-- The keywords that separate operands or change what separates them. -/
def connectives : List String := ["AND", "OR", "BETWEEN", "CASE", "END"]

namespace FreeOf

variable {keywords : List String} {ps qs : List Part}

theorem append (hp : FreeOf keywords ps) (hq : FreeOf keywords qs) : FreeOf keywords (ps ++ qs) := by
  rw [FreeOf, List.all_append, hp, hq]
  rfl

theorem mono (h : FreeOf keywords ps) {fewer : List String} (hsub : fewer ⊆ keywords) : FreeOf fewer ps := by
  simp only [FreeOf, List.all_eq_true, Part.isFree] at h ⊢
  exact fun p hp keyword hk => h p hp keyword (hsub hk)

theorem group (keywords : List String) (ps : List Part) : FreeOf keywords [.group ps] := by
  simp [FreeOf, Part.isFree, Part.isWord]

end FreeOf

theorem Level.put_quiet {p : Part} (h : p.isFree connectives) (v : Level) (φ : Formula (List Part)) :
    v.put p φ = { v with operand := v.operand ++ [(p, φ)] } := by
  simp only [Part.isFree, connectives, List.all_cons, List.all_nil, Bool.and_true, Bool.and_eq_true,
    Bool.not_eq_true'] at h
  obtain ⟨hand, hor, hbetween, hcase, hend⟩ := h
  simp [Level.put, hand, hor, hbetween, hcase, hend]

theorem readParts_quiet {ps : List Part} (h : FreeOf connectives ps) (v : Level) :
    readParts ps v = { v with operand := v.operand ++ ps.map fun p => (p, p.formula) } := by
  induction ps generalizing v with
  | nil => simp [readParts]
  | cons p ps ih =>
    simp only [FreeOf, List.all_cons, Bool.and_eq_true] at h
    rw [readParts, Level.put_quiet h.1, ih h.2]
    simp

/-- Several parts that do not begin with `NOT` are an atom. -/
theorem readOperand_atom {p : Part} (hp : p.isWord "NOT" = false) {qs : List Part} (hqs : qs ≠ []) :
    readOperand ((p :: qs).map fun p => (p, p.formula)) = .atom (p :: qs) := by
  obtain ⟨q, qs, rfl⟩ := List.exists_cons_of_ne_nil hqs
  simp [readOperand, hp, Function.comp_def]

theorem readCondition_quiet {p : Part} (hp : p.isWord "NOT" = false) {qs : List Part} (hqs : qs ≠ [])
    (h : FreeOf connectives (p :: qs)) : readCondition (p :: qs) = .atom (p :: qs) := by
  rw [readCondition, readParts_quiet h, Level.result, Level.disjunct]
  simp only [List.nil_append]
  rw [readOperand_atom hp hqs]
  rfl

theorem Level.put_between {v : Level} (h : v.cases = 0) (φ : Formula (List Part)) :
    v.put (.word (.plain "BETWEEN")) φ =
      { v with operand := v.operand ++ [(Part.word (Word.plain "BETWEEN"), φ)], between := true } := by
  have hand : (Part.word (.plain "BETWEEN")).isWord "AND" = false := by decide
  have hor : (Part.word (.plain "BETWEEN")).isWord "OR" = false := by decide
  have hcase : (Part.word (.plain "BETWEEN")).isWord "CASE" = false := by decide
  have hend : (Part.word (.plain "BETWEEN")).isWord "END" = false := by decide
  have hself : (Part.word (.plain "BETWEEN")).isWord "BETWEEN" = true := by decide
  simp [Level.put, hand, hor, hcase, hend, hself, h]

/-- The `AND` of a `BETWEEN` separates nothing. -/
theorem Level.put_and_of_between {v : Level} (h : v.cases = 0) (hbetween : v.between = true) (φ : Formula (List Part)) :
    v.put (.word (.plain "AND")) φ =
      { v with operand := v.operand ++ [(Part.word (Word.plain "AND"), φ)], between := false } := by
  have hor : (Part.word (.plain "AND")).isWord "OR" = false := by decide
  have hcase : (Part.word (.plain "AND")).isWord "CASE" = false := by decide
  have hend : (Part.word (.plain "AND")).isWord "END" = false := by decide
  have hself : (Part.word (.plain "AND")).isWord "AND" = true := by decide
  simp [Level.put, hor, hcase, hend, hself, h, hbetween]

/-- The `AND` of a `BETWEEN` belongs to the atom. -/
theorem readCondition_between {p : Part} (hp : p.isWord "NOT" = false) {qs low high : List Part}
    (h : FreeOf connectives (p :: qs)) (hlow : FreeOf connectives low) (hhigh : FreeOf connectives high) :
    readCondition (p :: qs ++ Part.word (Word.plain "BETWEEN") :: (low ++ Part.word (Word.plain "AND") :: high)) =
      .atom (p :: qs ++ Part.word (Word.plain "BETWEEN") :: (low ++ Part.word (Word.plain "AND") :: high)) := by
  rw [readCondition, readParts_append, readParts_quiet h, readParts, Level.put_between rfl, readParts_append,
    readParts_quiet hlow, readParts, Level.put_and_of_between rfl rfl, readParts_quiet hhigh, Level.result,
    Level.disjunct]
  have hne : qs ++ Part.word (Word.plain "BETWEEN") :: (low ++ Part.word (Word.plain "AND") :: high) ≠ [] := by simp
  have hatom := readOperand_atom hp hne
  simp only [List.map_cons, List.map_append] at hatom
  simp only [List.nil_append, List.map_cons, List.cons_append, List.append_assoc, hatom]
  rfl

/-! ## Connectives -/

theorem put_group {ps : List Part} (h : opensStatement ps = false) (v : Level) :
    v.put (.group ps) (Part.group ps).formula =
      { v with operand := v.operand ++ [(Part.group ps, readCondition ps)] } := by
  rw [Level.put_quiet (by rfl), Part.formula_group h]

theorem readCondition_not {ps : List Part} (h : opensStatement ps = false) :
    readCondition [.word (.plain "NOT"), .group ps] = .not (readCondition ps) := by
  rw [readCondition, readParts, readParts, readParts, put_group h, Level.put_quiet (by decide)]
  rfl

/-- Conditions in parentheses with a connective between them. -/
def connected (connective : String) (gs : List (List Part)) : List Part :=
  (gs.map Part.group).intersperse (.word (.plain connective))

theorem readParts_connected_all {gs : List (List Part)} (hne : gs ≠ []) (h : ∀ ps ∈ gs, opensStatement ps = false)
    {v : Level} (hoperand : v.operand = []) (hbetween : v.between = false) (hcases : v.cases = 0) :
    (readParts (connected "AND" gs) v).result = .disj (v.any ++ [.conj (v.all ++ gs.map readCondition)]) := by
  induction gs generalizing v with
  | nil => exact absurd rfl hne
  | cons ps gs ih =>
    have hps := h ps (by simp)
    cases gs with
    | nil =>
      rw [connected, List.map_singleton, List.intersperse_singleton, readParts, readParts, put_group hps, hoperand]
      rfl
    | cons qs gs =>
      have hand : (Part.word (.plain "AND")).isWord "AND" = true := by decide
      have hrest : connected "AND" (ps :: qs :: gs) =
          .group ps :: .word (.plain "AND") :: connected "AND" (qs :: gs) := rfl
      rw [hrest, readParts, put_group hps, readParts, Level.put, if_pos ⟨hcases, hbetween, hand⟩]
      refine Eq.trans (ih (by simp) (fun rs hrs => h rs (by simp [hrs])) (by rfl) (by exact hbetween)
        (by exact hcases)) ?_
      simp [hoperand, readOperand]

/-- **A conjunction is read part by part.** -/
theorem readCondition_all {gs : List (List Part)} (hne : gs ≠ []) (h : ∀ ps ∈ gs, opensStatement ps = false) :
    readCondition (connected "AND" gs) = .conj (gs.map readCondition) := by
  rw [readCondition, readParts_connected_all hne h rfl rfl rfl]
  rfl

theorem readParts_connected_any {gs : List (List Part)} (hne : gs ≠ []) (h : ∀ ps ∈ gs, opensStatement ps = false)
    {v : Level} (hoperand : v.operand = []) (hall : v.all = []) (hcases : v.cases = 0) :
    (readParts (connected "OR" gs) v).result = .disj (v.any ++ gs.map readCondition) := by
  induction gs generalizing v with
  | nil => exact absurd rfl hne
  | cons ps gs ih =>
    have hps := h ps (by simp)
    cases gs with
    | nil =>
      rw [connected, List.map_singleton, List.intersperse_singleton, readParts, readParts, put_group hps, hoperand]
      simp [Level.result, Level.disjunct, hall, readOperand, Formula.conj]
    | cons qs gs =>
      have hor : (Part.word (.plain "OR")).isWord "OR" = true := by decide
      have hand : (Part.word (.plain "OR")).isWord "AND" = false := by decide
      have hrest : connected "OR" (ps :: qs :: gs) =
          .group ps :: .word (.plain "OR") :: connected "OR" (qs :: gs) := rfl
      rw [hrest, readParts, put_group hps, readParts, Level.put, if_neg (by simp [hand]), if_pos ⟨hcases, hor⟩]
      refine Eq.trans (ih (by simp) (fun rs hrs => h rs (by simp [hrs])) (by rfl) (by rfl) (by exact hcases)) ?_
      simp [Level.disjunct, hoperand, hall, readOperand, Formula.conj]

/-- **A disjunction is read part by part.** -/
theorem readCondition_any {gs : List (List Part)} (hne : gs ≠ []) (h : ∀ ps ∈ gs, opensStatement ps = false) :
    readCondition (connected "OR" gs) = .disj (gs.map readCondition) := by
  rw [readCondition, readParts_connected_any hne h rfl rfl rfl]
  rfl

/-! ## Texts -/

/-- The parts of lexemes. -/
def parts (l : List Lexeme) : Option (List Part) := brackets (words l)

/-- The parts of a text, `none` when its quotes or its parentheses do not match. -/
def textParts (s : String) : Option (List Part) := (lex s).bind parts

theorem exists_parts {l : List Lexeme} (h : Balanced l) : ∃ ps, parts l = some ps :=
  exists_brackets ((foldlM_nest_words l 0).trans h)

section Append

variable {l m r : List Lexeme} {ps qs rs : List Part}

theorem parts_append_of_loose (hl : parts l = some ps) (hm : parts m = some qs)
    (h : m.head?.any Lexeme.isLoose = true) : parts (l ++ m) = some (ps ++ qs) := by
  rw [parts, words_append_of_loose h]
  exact brackets_append hl hm

theorem parts_loose_append (hl : parts l = some ps) (hm : parts m = some qs)
    (h : l.getLast?.any Lexeme.isLoose = true) : parts (l ++ m) = some (ps ++ qs) := by
  rw [parts, words_loose_append h]
  exact brackets_append hl hm

/-- Lexemes with a text between them that belongs to neither. -/
theorem parts_between (hl : parts l = some ps) (hm : parts m = some qs) (hr : parts r = some rs)
    (hhead : m.head?.any Lexeme.isLoose = true) (hlast : m.getLast?.any Lexeme.isLoose = true) :
    parts (l ++ (m ++ r)) = some (ps ++ (qs ++ rs)) := by
  rw [parts, words_between hhead hlast]
  exact brackets_append hl (brackets_append hm hr)

theorem parts_parenthesized (hl : parts l = some ps) :
    parts (Lexeme.char '(' :: (l ++ [Lexeme.char ')'])) = some [.group ps] := by
  have hwords : words (Lexeme.char '(' :: (l ++ [Lexeme.char ')'])) =
      Word.plain "(" :: (words l ++ [Word.plain ")"]) := by
    change words ([Lexeme.char '('] ++ (l ++ [Lexeme.char ')'])) = _
    rw [words_loose_append (by decide), words_append_of_loose (by decide)]
    rfl
  rw [parts, hwords]
  exact brackets_group hl

/-- Lexemes in front of parentheses, whatever stands in these. -/
theorem exists_parts_call (hl : parts l = some ps) (h : Balanced m) :
    ∃ qs, parts (l ++ Lexeme.char '(' :: (m ++ [Lexeme.char ')'])) = some (ps ++ [Part.group qs]) := by
  obtain ⟨qs, hqs⟩ := exists_parts h
  exact ⟨qs, parts_append_of_loose hl (parts_parenthesized hqs) (by rfl)⟩

end Append

variable {β : Type} {g : Token β → List Lexeme}

theorem flatMap_parenthesized (hg : ∀ s, g (.text s) = textLexemes s) (f : Fragment β) :
    (Fragment.parenthesized f).flatMap g = Lexeme.char '(' :: (f.flatMap g ++ [Lexeme.char ')']) := by
  have hopen : textLexemes "(" = [.char '('] := by decide
  have hclose : textLexemes ")" = [.char ')'] := by decide
  simp [Fragment.parenthesized, hg, hopen, hclose]

/-- Fragments in parentheses with a connective between them. -/
theorem parts_connected (hg : ∀ s, g (.text s) = textLexemes s) {connective : String} {separator : String}
    (hwords : parts (textLexemes separator) = some [.word (.plain connective)])
    (hhead : (textLexemes separator).head?.any Lexeme.isLoose = true)
    (hlast : (textLexemes separator).getLast?.any Lexeme.isLoose = true) {fs : List (Fragment β)}
    {gs : List (List Part)} (h : List.Forall₂ (fun f ps => parts (f.flatMap g) = some ps) fs gs) (hne : fs ≠ []) :
    parts ((Fragment.separated separator (fs.map Fragment.parenthesized)).flatMap g) =
      some (connected connective gs) := by
  induction h with
  | nil => exact absurd rfl hne
  | @cons f ps fs gs hf hrest ih =>
    have hgroup : parts ((Fragment.parenthesized f).flatMap g) = some [.group ps] := by
      rw [flatMap_parenthesized hg]
      exact parts_parenthesized hf
    cases hrest with
    | nil => exact hgroup
    | cons hf' hrest =>
      simp only [List.map_cons, Fragment.separated, List.flatMap_append, List.flatMap_cons, hg]
      exact parts_between hgroup hwords (ih (by simp)) hhead hlast

end ParamQuery.Sql
