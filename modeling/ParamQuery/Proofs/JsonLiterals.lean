/-
Literals and the JSON values they are written as. A JSON value goes through a literal
unchanged unless it is an integer above those with a sign: that one becomes the nearest
float (`toJson_ofJson`). Reading the JSON value of a literal back gives a literal in
normal form, which further rounds leave alone (`reread_normal_form`). Both rest on what
reading gives for each kind of value (`denotes_ofJson`).
-/
import ParamQuery.Literal
import ParamQuery.Json.Reader
import ParamQuery.Proofs.Rounding

namespace ParamQuery

/-! ## Numbers of JSON -/

/-- The numbers that JSON values have: integers of 64 bits, with a sign or without, and
finite floats. -/
def JsonNumber.InRange : JsonNumber → Prop
  | .int n => Int64.minValue.toInt ≤ n ∧ n < 2 ^ 64
  | .float x => x.isFinite

/-- A number is one that JSON values have; nothing is asked of the other values, nor of
what is inside an array or an object. -/
def Json.InRange : Json → Prop
  | .number n => n.InRange
  | _ => True

namespace Json.Reader

theorem float?_inRange {negative : Bool} {whole fraction : List Char} {exponent : Int} {n : JsonNumber}
    (h : float? negative whole fraction exponent = some n) : n.InRange := by
  unfold float? at h
  dsimp only at h
  split at h
  · next hfinite =>
    cases h
    exact hfinite
  · cases h

theorem numberOf?_inRange {negative : Bool} {whole : List Char} {fraction : Option (List Char)}
    {exponent : Option Int} {n : JsonNumber} (h : numberOf? negative whole fraction exponent = some n) :
    n.InRange := by
  unfold numberOf? at h
  split at h
  · dsimp only at h
    split_ifs at h with hnegative hsigned hunsigned
    · cases h
      simp only [JsonNumber.InRange, Int64.toInt_minValue]
      omega
    · exact float?_inRange h
    · cases h
      simp only [JsonNumber.InRange, Int64.toInt_minValue]
      omega
    · exact float?_inRange h
  · exact float?_inRange h

theorem number_inRange {cs rest : List Char} {n : JsonNumber} (h : number cs = some (n, rest)) : n.InRange := by
  unfold number at h
  dsimp only at h
  -- with a minus sign and without
  split at h
  all_goals
    split at h
    · cases h
    · simp only [Option.bind_eq_bind, Option.bind_eq_some_iff, Option.pure_def, Option.some.injEq] at h
      obtain ⟨_, -, _, -, _, hn, heq⟩ := h
      cases heq
      exact numberOf?_inRange hn

theorem word_inRange {w cs rest : List Char} {v v' : Json} (hv : v.InRange) (h : word w v cs = some (v', rest)) :
    v'.InRange := by
  unfold word at h
  split at h
  · cases h
    exact hv
  · cases h

theorem value_inRange {limit : Nat} {cs rest : List Char} {v : Json} (h : value limit cs = some (v, rest)) :
    v.InRange := by
  rw [value] at h
  split at h
  · cases h
  · obtain ⟨_, -, heq⟩ := Option.map_eq_some_iff.1 h
    cases heq
    trivial
  · split at h
    · cases h
    · obtain ⟨_, -, heq⟩ := Option.map_eq_some_iff.1 h
      cases heq
      trivial
  · split at h
    · cases h
    · obtain ⟨_, -, heq⟩ := Option.map_eq_some_iff.1 h
      cases heq
      trivial
  · exact word_inRange (v := .null) trivial h
  · exact word_inRange (v := .bool true) trivial h
  · exact word_inRange (v := .bool false) trivial h
  · obtain ⟨_, hn, heq⟩ := Option.map_eq_some_iff.1 h
    cases heq
    exact number_inRange hn

end Json.Reader

/-- What is read from a text is in range. -/
theorem Json.parse_inRange {limit : Nat} {text : String} {v : Json} (h : Json.parse limit text = some v) :
    v.InRange := by
  unfold Json.parse at h
  split at h
  · next v' rest hvalue =>
    split at h
    · cases h
      exact Reader.value_inRange hvalue
    · cases h
  · cases h

/-! ## The literal of a JSON value -/

/-- An array or an object. -/
def Json.isDocument : Json → Bool
  | .array _ | .object _ => true
  | _ => false

/-- The literal of its own kind that a JSON value denotes; documents stay JSON. An integer
above those with a sign has no literal of its kind: it denotes the nearest float. -/
inductive Json.Denotes : Json → Literal → Prop where
  | null : Denotes .null .null
  | bool (b : Bool) : Denotes (.bool b) (.bool b)
  | int (n : Int64) : Denotes (.number (.int n.toInt)) (.int n)
  | rounded {n : Int} {x : Binary64} : Int64.maxValue.toInt < n → x.IsNearest n →
      Denotes (.number (.int n)) (.float x)
  | float {x : Binary64} : x.isFinite → Denotes (.number (.float x)) (.float x)
  | string (s : String) : Denotes (.string s) (.string s)
  | document {v : Json} : v.isDocument → Denotes v (.json v)

namespace Literal

/-- The literals that JSON values denote. -/
def isNormal : Literal → Bool
  | .null | .bool _ | .int _ | .string _ => true
  | .float x => x.isFinite
  | .uuid _ | .timestamp _ => false
  | .json v => v.isDocument

theorem fitsInt64_iff {n : Int} : fitsInt64 n ↔ Int64.minValue.toInt ≤ n ∧ n ≤ Int64.maxValue.toInt := by
  rw [fitsInt64, Bool.and_eq_true, decide_eq_true_iff, decide_eq_true_iff]

theorem fitsInt64_toInt (n : Int64) : fitsInt64 n.toInt := fitsInt64_iff.2 ⟨n.minValue_le_toInt, n.toInt_le⟩

theorem toInt_ofInt_of_fits {n : Int} (h : fitsInt64 n) : (Int64.ofInt n).toInt = n := by
  obtain ⟨hmin, hmax⟩ := fitsInt64_iff.1 h
  rw [Int64.toInt_minValue] at hmin
  rw [Int64.toInt_maxValue] at hmax
  exact Int64.toInt_ofInt_of_le hmin (by omega)

theorem ofJson_int {n : Int} (h : fitsInt64 n) : ofJson (.number (.int n)) = .int (Int64.ofInt n) := if_pos h

theorem ofJson_large {n : Int} (h : ¬ fitsInt64 n) : ofJson (.number (.int n)) = .float (Binary64.ofInt n) := if_neg h

theorem ofJson_float {x : Binary64} (h : x.isFinite) : ofJson (.number (.float x)) = .float x := by
  simp [ofJson, Binary64.isNaN, h]

theorem toJson_float {x : Binary64} (h : x.isFinite) : (Literal.float x).toJson = .number (.float x) := if_pos h

theorem toJson_infinite {x : Binary64} (h : x.isFinite = false) : (Literal.float x).toJson = .null := by
  rw [toJson, h, if_neg Bool.false_ne_true]

/-- **What is read is what the value denotes.** -/
theorem denotes_ofJson {v : Json} (h : v.InRange) : v.Denotes (ofJson v) := by
  cases v with
  | null => exact .null
  | bool b => exact .bool b
  | string s => exact .string s
  | array | object => exact .document rfl
  | number n =>
    cases n with
    | int n =>
      obtain ⟨hmin, hmax⟩ := h
      by_cases hfits : fitsInt64 n
      · have hint := Json.Denotes.int (Int64.ofInt n)
        rwa [toInt_ofInt_of_fits hfits, ← ofJson_int hfits] at hint
      · -- no integer in range is below those with a sign
        have habove : Int64.maxValue.toInt < n := not_le.1 fun hle => hfits (fitsInt64_iff.2 ⟨hmin, hle⟩)
        have hnearest : (Binary64.ofInt n).IsNearest n := by
          rw [Int64.toInt_minValue] at hmin
          exact Binary64.ofInt_isNearest (by omega)
        rw [ofJson_large hfits]
        exact .rounded habove hnearest
    | float x =>
      rw [ofJson_float h]
      exact .float h

end Literal

namespace Json.Denotes

variable {v : Json} {l : Literal}

theorem isNormal (h : v.Denotes l) : l.isNormal := by
  cases h with
  | null | bool | int | string => rfl
  | rounded _ hnearest => exact hnearest.finite
  | float hfinite => exact hfinite
  | document hdocument => exact hdocument

theorem toJson_eq (h : v.Denotes l) (hsigned : ∀ n, v = .number (.int n) → n ≤ Int64.maxValue.toInt) :
    l.toJson = v := by
  cases h with
  | null | bool | int | string | document => rfl
  | rounded habove => exact absurd (hsigned _ rfl) (not_le.2 habove)
  | float hfinite => exact Literal.toJson_float hfinite

theorem toJson_rounded {n : Int} (h : Denotes (.number (.int n)) l) (hn : Int64.maxValue.toInt < n) :
    ∃ x : Binary64, l.toJson = .number (.float x) ∧ x.IsNearest n := by
  cases h with
  | int i => exact absurd i.toInt_le (not_le.2 hn)
  | rounded _ hnearest => exact ⟨_, Literal.toJson_float hnearest.finite, hnearest⟩
  | document hdocument => cases hdocument

end Json.Denotes

/-! ## JSON through a literal -/

/-- **JSON through a literal.** A value comes back unchanged just if it is not an integer
above those with a sign. Such an integer comes back as the float nearest to it; inside an
array or an object it is kept. -/
theorem toJson_ofJson (v : Json) (h : v.InRange) :
    ((Literal.ofJson v).toJson = v ↔ ∀ n, v = .number (.int n) → n ≤ Int64.maxValue.toInt) ∧
      ∀ n, v = .number (.int n) → Int64.maxValue.toInt < n →
        ∃ x : Binary64, (Literal.ofJson v).toJson = .number (.float x) ∧ x.IsNearest n := by
  have hdenotes := Literal.denotes_ofJson h
  refine ⟨⟨fun hkept n hv => ?_, hdenotes.toJson_eq⟩, ?_⟩
  · subst hv
    by_contra hn
    obtain ⟨x, hx, -⟩ := hdenotes.toJson_rounded (not_le.1 hn)
    rw [hx] at hkept
    cases hkept
  · rintro n rfl hn
    exact hdenotes.toJson_rounded hn

/-- The second integer above those with a sign. -/
def oddInteger : Json := .number (.int 9223372036854775809)

theorem oddInteger_parsed : Json.parse 0 "9223372036854775809" = some oddInteger := by rfl

theorem oddInteger_inRange : oddInteger.InRange := Json.parse_inRange oddInteger_parsed

theorem oddInteger_toJson_ofJson :
    (Literal.ofJson (.array [oddInteger])).toJson = .array [oddInteger] ∧
      ∃ x : Binary64, (Literal.ofJson oddInteger).toJson = .number (.float x) ∧ x.IsNearest 9223372036854775809 :=
  ⟨(toJson_ofJson (.array [oddInteger]) trivial).1.2 (fun _ h => by cases h),
    (toJson_ofJson oddInteger oddInteger_inRange).2 _ rfl (by decide)⟩

/-- The float is the power of two before it. -/
theorem oddInteger_changed :
    oddInteger.InRange ∧ (Literal.ofJson oddInteger).toJson = .number (.float ⟨0x43E0000000000000⟩) ∧
      (Literal.ofJson oddInteger).toJson ≠ oddInteger := by
  have hround : Binary64.ofInt 9223372036854775809 = ⟨0x43E0000000000000⟩ := by decide +kernel
  have hfloat : Literal.ofJson oddInteger = .float ⟨0x43E0000000000000⟩ := by
    rw [oddInteger, Literal.ofJson_large (by decide), hround]
  have hjson : (Literal.ofJson oddInteger).toJson = .number (.float ⟨0x43E0000000000000⟩) := by
    rw [hfloat, Literal.toJson_float (by decide)]
  refine ⟨oddInteger_inRange, hjson, fun heq => ?_⟩
  rw [hjson] at heq
  cases heq

/-! ## Literals through JSON -/

namespace Literal

/-- The literal read back from the JSON value of a literal. -/
def reread (l : Literal) : Literal := ofJson l.toJson

/-- JSON that the literal carries is in range. -/
def InRange : Literal → Prop
  | .json v => v.InRange
  | _ => True

theorem toJson_inRange {l : Literal} (h : l.InRange) : l.toJson.InRange := by
  cases l with
  | null | bool | string | uuid | timestamp => trivial
  | int n => exact ⟨n.minValue_le_toInt, n.toInt_lt.trans (by decide)⟩
  | float x =>
    cases hfinite : x.isFinite with
    | false =>
      rw [toJson_infinite hfinite]
      trivial
    | true =>
      rw [toJson_float hfinite]
      exact hfinite
  | json v => exact h

theorem denotes_reread {l : Literal} (h : l.InRange) : l.toJson.Denotes l.reread := denotes_ofJson (toJson_inRange h)

theorem reread_of_isNormal {l : Literal} (h : l.isNormal) : l.reread = l := by
  cases l with
  | null | bool | string => rfl
  | uuid | timestamp => cases h
  | int n => rw [reread, toJson, ofJson_int (fitsInt64_toInt n), Int64.ofInt_toInt]
  | float x => rw [reread, toJson_float h, ofJson_float h]
  | json v => cases v <;> first | rfl | cases h

/-- **Reading back is a normal form.** A second round changes nothing, and the first one
nothing in the literals that JSON values denote. Of the others, identifiers and times
become their texts, floats that are not finite become null, and scalars carried as JSON
become what they denote. An integer and a float are never written alike. -/
theorem reread_normal_form (l : Literal) (h : l.InRange) :
    l.reread.reread = l.reread ∧
      (l.reread = l ↔ l.isNormal) ∧
      (∀ u, l = .uuid u → l.reread = .string u.text) ∧
      (∀ t, l = .timestamp t → l.reread = .string t.text) ∧
      (∀ x, l = .float x → x.isFinite = false → l.reread = .null) ∧
      (∀ v, l = .json v → v.Denotes l.reread) ∧
      (∀ x n, l = .float x → l.toJson ≠ (Literal.int n).toJson) ∧
      ∀ l' : Literal, l.isNormal → l'.isNormal → l.toJson = l'.toJson → l = l' := by
  have hnormal : l.reread.isNormal := (denotes_reread h).isNormal
  refine ⟨reread_of_isNormal hnormal, ⟨fun heq => heq ▸ hnormal, reread_of_isNormal⟩, ?_, ?_, ?_, ?_, ?_, ?_⟩
  · rintro u rfl
    rfl
  · rintro t rfl
    rfl
  · rintro x rfl hinfinite
    rw [reread, toJson_infinite hinfinite, ofJson]
  · rintro v rfl
    exact denotes_reread h
  · rintro x n rfl heq
    cases hfinite : x.isFinite with
    | false =>
      rw [toJson_infinite hfinite] at heq
      cases heq
    | true =>
      rw [toJson_float hfinite] at heq
      cases heq
  · intro l' hl hl' heq
    rw [← reread_of_isNormal hl, ← reread_of_isNormal hl', reread, heq, reread]

/-- A number beyond those with a sign that is carried as JSON. -/
theorem oddInteger_reread :
    (reread (.json oddInteger)).reread = reread (.json oddInteger) ∧ oddInteger.Denotes (reread (.json oddInteger)) :=
  have h := reread_normal_form (.json oddInteger) oddInteger_inRange
  ⟨h.1, h.2.2.2.2.2.1 oddInteger rfl⟩

end Literal

end ParamQuery
