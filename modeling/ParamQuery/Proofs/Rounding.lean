/-
Rounding a quotient to double precision. `Binary64.ofRatio` divides with a power of
two for which the integer quotient has at most 53 bits, and rounds that. The outcome
is a number nearest the quotient among all numbers, those of other powers of two
included, and of two that are as near the one with the even significand
(`ofRatio_nearest`). So is an integer of 64 bits, with its sign (`ofInt_isNearest`).

Distances are counted in units of `2 ^ -1074`, multiplied by the denominator, so that
all of them are integers.
-/
import ParamQuery.Number.Binary64
import Mathlib.Algebra.Order.Ring.Abs
import Mathlib.Algebra.Order.Ring.Int
import Mathlib.Tactic.Linarith
import Mathlib.Tactic.Ring

namespace ParamQuery.Binary64

/-! ## Reading the bits -/

/-- A power of two and a significand of which the magnitude bits are made: the
significand has 53 bits, or it is the next power of two, or fewer where the power is
the smallest. -/
structure Encodable (p m : Nat) : Prop where
  le : m ≤ 2 * exponentPlace
  normal : exponentPlace ≤ m ∨ p = 0
  finite : p * exponentPlace + m < infiniteMagnitude

theorem word_ofMagnitude (negative : Bool) {magnitude : Nat} (h : magnitude < infiniteMagnitude) :
    (ofMagnitude negative magnitude).word = (if negative then signPlace else 0) + magnitude := by
  unfold word ofMagnitude
  rw [UInt64.toNat_ofNat']
  refine Nat.mod_eq_of_lt ?_
  unfold infiniteMagnitude exponentPlace at h
  cases negative <;> simp [signPlace] <;> omega

theorem isNegative_ofMagnitude (negative : Bool) {magnitude : Nat} (h : magnitude < infiniteMagnitude) :
    (ofMagnitude negative magnitude).isNegative = negative := by
  rw [isNegative, word_ofMagnitude negative h]
  unfold infiniteMagnitude exponentPlace at h
  cases negative <;> simp [signPlace]
  omega

theorem exponentField_ofMagnitude (negative : Bool) {magnitude : Nat} (h : magnitude < infiniteMagnitude) :
    (ofMagnitude negative magnitude).exponentField = magnitude / exponentPlace := by
  rw [exponentField, word_ofMagnitude negative h]
  unfold infiniteMagnitude at h
  unfold exponentPlace at h ⊢
  cases negative <;> simp [signPlace] <;> omega

theorem fraction_ofMagnitude (negative : Bool) {magnitude : Nat} (h : magnitude < infiniteMagnitude) :
    (ofMagnitude negative magnitude).fraction = magnitude % exponentPlace := by
  rw [fraction, word_ofMagnitude negative h]
  unfold infiniteMagnitude at h
  unfold exponentPlace at h ⊢
  cases negative <;> simp [signPlace]
  omega

theorem isFinite_ofMagnitude (negative : Bool) {magnitude : Nat} (h : magnitude < infiniteMagnitude) :
    (ofMagnitude negative magnitude).isFinite := by
  rw [isFinite, exponentField_ofMagnitude negative h, bne_iff_ne]
  unfold infiniteMagnitude at h
  unfold exponentPlace at h ⊢
  omega

theorem units_eq (x : Binary64) : x.units = x.significand * 2 ^ x.unitExponent := rfl

/-- The bits denote the significand times the power of two, also when the significand
is carried into the next power. -/
theorem units_ofMagnitude (negative : Bool) {p m : Nat} (h : Encodable p m) :
    (ofMagnitude negative (p * exponentPlace + m)).units = m * 2 ^ p := by
  have hle := h.le
  rw [units_eq, significand, unitExponent, exponentField_ofMagnitude negative h.finite,
    fraction_ofMagnitude negative h.finite]
  by_cases hsmall : m < exponentPlace
  · obtain rfl : p = 0 := h.normal.resolve_left (by omega)
    rw [Nat.zero_mul, Nat.zero_add, Nat.div_eq_of_lt hsmall, Nat.mod_eq_of_lt hsmall, if_pos rfl]
  · unfold exponentPlace at hle hsmall ⊢
    by_cases hcarry : m = 2 * 0x10000000000000
    · have hfield : (p * 0x10000000000000 + m) / 0x10000000000000 = p + 2 := by omega
      have hrest : (p * 0x10000000000000 + m) % 0x10000000000000 = 0 := by omega
      have hpower : p + 2 - 1 = p + 1 := by omega
      rw [hfield, hrest, if_neg (by omega), hpower, hcarry, Nat.pow_succ]
      ring
    · have hfield : (p * 0x10000000000000 + m) / 0x10000000000000 = p + 1 := by omega
      have hrest : 0x10000000000000 + (p * 0x10000000000000 + m) % 0x10000000000000 = m := by omega
      rw [hfield, hrest, if_neg (by omega), Nat.add_sub_cancel]

theorem even_significand_ofMagnitude (negative : Bool) {p m : Nat} (h : Encodable p m) (heven : m % 2 = 0) :
    (ofMagnitude negative (p * exponentPlace + m)).significand % 2 = 0 := by
  rw [significand, exponentField_ofMagnitude negative h.finite, fraction_ofMagnitude negative h.finite]
  unfold exponentPlace
  split <;> omega

theorem significand_lt (x : Binary64) : x.significand < 2 * exponentPlace := by
  have hfraction : x.fraction < exponentPlace := Nat.mod_lt _ (by decide)
  unfold significand
  split <;> omega

/-- A number is a multiple of a power of two, or it is smaller than the numbers that the
power belongs to. -/
theorem units_grid (y : Binary64) (p : Nat) :
    (∃ k, y.units = k * 2 ^ p) ∨ 0 < p ∧ y.units < exponentPlace * 2 ^ p := by
  rcases Nat.lt_or_ge y.unitExponent p with hp | hp
  · refine .inr ⟨Nat.zero_lt_of_lt hp, ?_⟩
    have hpower : 2 * 2 ^ y.unitExponent ≤ 2 ^ p := by
      rw [← Nat.pow_succ']
      exact Nat.pow_le_pow_right (by decide) hp
    calc y.units = y.significand * 2 ^ y.unitExponent := rfl
      _ < 2 * exponentPlace * 2 ^ y.unitExponent := Nat.mul_lt_mul_of_pos_right y.significand_lt (Nat.two_pow_pos _)
      _ = exponentPlace * (2 * 2 ^ y.unitExponent) := by ring
      _ ≤ exponentPlace * 2 ^ p := Nat.mul_le_mul_left _ hpower
  · refine .inl ⟨y.significand * 2 ^ (y.unitExponent - p), ?_⟩
    rw [units_eq, Nat.mul_assoc, ← Nat.pow_add, Nat.sub_add_cancel hp]

/-! ## Rounding to a multiple -/

/-- Rounding is off by half the divisor at most, and by half of it only if the outcome is
even. -/
theorem roundQuotient_error (a : Nat) {d : Nat} (hd : 0 < d) :
    2 * |(a : Int) - roundQuotient a d * d| ≤ d ∧
      (2 * |(a : Int) - roundQuotient a d * d| = d → roundQuotient a d % 2 = 0) := by
  have hdivision : a = a / d * d + a % d := (Nat.div_add_mod' a d).symm
  have hrest : a % d < d := Nat.mod_lt a hd
  unfold roundQuotient
  generalize a / d = q, a % d = r at hdivision hrest ⊢
  have hdown : |(a : Int) - q * d| = r := by
    have h : (a : Int) - q * d = r := by rw [hdivision]; push_cast; ring
    rw [h, abs_of_nonneg (Int.natCast_nonneg r)]
  have hup : |(a : Int) - (q + 1 : Nat) * d| = d - r := by
    have h : (a : Int) - (q + 1 : Nat) * d = -(d - r) := by rw [hdivision]; push_cast; ring
    rw [h, abs_neg, abs_of_nonneg (by omega)]
  dsimp only
  split_ifs with hless hmore heven
  · rw [hdown]
    omega
  · rw [hup]
    omega
  · rw [hdown]
    omega
  · rw [hup]
    omega

/-- What is off by half the divisor at most is a nearest multiple; another one is as near
only if it is off by half. -/
theorem nearest_of_error {a d n : Int} (h : 2 * |a - n * d| ≤ d) (k : Int) :
    |a - n * d| ≤ |a - k * d| ∧ (k ≠ n → |a - k * d| = |a - n * d| → 2 * |a - n * d| = d) := by
  by_cases hk : k = n
  · subst hk
    exact ⟨le_rfl, fun hne => absurd rfl hne⟩
  · have hd : 0 ≤ d := le_trans (by positivity) h
    have hapart : d ≤ |n * d - k * d| := by
      have hsteps : 1 ≤ |n - k| := Int.one_le_abs (sub_ne_zero.2 (Ne.symm hk))
      rw [← sub_mul, abs_mul, abs_of_nonneg hd]
      nlinarith
    have htriangle : |n * d - k * d| ≤ |a - n * d| + |a - k * d| := by
      rw [abs_sub_comm a (n * d)]
      exact abs_sub_le _ _ _
    exact ⟨by linarith, fun _ heq => by linarith⟩

/-! ## Rounding a quotient -/

/-- One in the units in which numbers are counted. -/
def one : Nat := Nat.pow 2 1074

/-- The power of two with which a quotient is rounded. -/
def ratioPower (num den : Nat) : Nat := (num * one / den).log2 - 52

/-- The significand that a quotient is rounded to. -/
def ratioSignificand (num den : Nat) : Nat := roundQuotient (num * one) (den * 2 ^ ratioPower num den)

theorem ofRatio_eq (negative : Bool) (num den : Nat) :
    ofRatio negative num den = ofMagnitude negative
      (min (ratioPower num den * exponentPlace + ratioSignificand num den) infiniteMagnitude) := by
  unfold ofRatio ratioSignificand ratioPower one
  rfl

theorem roundQuotient_cases (a d : Nat) : roundQuotient a d = a / d ∨ roundQuotient a d = a / d + 1 := by
  unfold roundQuotient
  dsimp only
  split_ifs <;> simp

/-- The quotient with the power of two has at most 53 bits, and all of them if the power
is not the smallest. -/
theorem ratio_bounds (num den : Nat) :
    num * one / (den * 2 ^ ratioPower num den) < 2 * exponentPlace ∧
      (exponentPlace ≤ num * one / (den * 2 ^ ratioPower num den) ∨ ratioPower num den = 0) := by
  unfold ratioPower
  rw [← Nat.div_div_eq_div_mul]
  generalize num * one / den = q
  have hplace : exponentPlace = 2 ^ 52 := rfl
  have htwice : 2 * exponentPlace = 2 ^ 53 := rfl
  rw [htwice, hplace]
  by_cases hq : q = 0
  · subst hq
    simp
  · have hlow := Nat.log2_self_le hq
    have hhigh := Nat.lt_log2_self (n := q)
    rcases Nat.lt_or_ge 52 q.log2 with hlog | hlog
    · obtain ⟨p, hp⟩ := Nat.exists_eq_add_of_le hlog.le
      rw [hp, Nat.add_sub_cancel_left]
      rw [hp] at hlow hhigh
      have hpos := Nat.two_pow_pos p
      refine ⟨(Nat.div_lt_iff_lt_mul hpos).2 ?_, .inl ((Nat.le_div_iff_mul_le hpos).2 ?_)⟩
      · rwa [← Nat.pow_add, show 53 + p = 52 + p + 1 by omega]
      · rwa [← Nat.pow_add]
    · have hzero : q.log2 - 52 = 0 := Nat.sub_eq_zero_of_le hlog
      rw [hzero, Nat.pow_zero, Nat.div_one]
      exact ⟨lt_of_lt_of_le hhigh (Nat.pow_le_pow_right (by decide) (by omega)), .inr rfl⟩

theorem ratioSignificand_le (num den : Nat) : ratioSignificand num den ≤ 2 * exponentPlace := by
  have hbound := (ratio_bounds num den).1
  rcases roundQuotient_cases (num * one) (den * 2 ^ ratioPower num den) with hm | hm <;>
    rw [ratioSignificand, hm] <;> omega

theorem encodable_ratio {num den : Nat}
    (h : ratioPower num den * exponentPlace + ratioSignificand num den < infiniteMagnitude) :
    Encodable (ratioPower num den) (ratioSignificand num den) where
  le := ratioSignificand_le num den
  normal := by
    refine (ratio_bounds num den).2.imp_left fun hbound => ?_
    rcases roundQuotient_cases (num * one) (den * 2 ^ ratioPower num den) with hm | hm <;>
      rw [ratioSignificand, hm] <;> omega
  finite := h

/-- How far the magnitude of a number is from a quotient, times the denominator. -/
def distance (x : Binary64) (num den : Nat) : Int := |((num * one : Nat) : Int) - x.units * den|

/-- **The nearest number.** No number lies nearer the quotient than the one it is rounded
to, and if another one lies as near, the significand is even. -/
theorem ofRatio_nearest (negative : Bool) {num den : Nat} (hden : 0 < den)
    (hfinite : ratioPower num den * exponentPlace + ratioSignificand num den < infiniteMagnitude) (y : Binary64) :
    (ofRatio negative num den).distance num den ≤ y.distance num den ∧
      (y.units ≠ (ofRatio negative num den).units →
        y.distance num den = (ofRatio negative num den).distance num den →
        (ofRatio negative num den).significand % 2 = 0) := by
  have hencodable := encodable_ratio hfinite
  have hbounds := (ratio_bounds num den).2
  unfold distance
  rw [ofRatio_eq, Nat.min_eq_left hfinite.le, units_ofMagnitude negative hencodable]
  have heven := even_significand_ofMagnitude negative hencodable
  rw [ratioSignificand] at heven ⊢
  generalize num * one = a at hbounds heven ⊢
  generalize ratioPower num den = p at hbounds heven ⊢
  have hd : 0 < den * 2 ^ p := Nat.mul_pos hden (Nat.two_pow_pos p)
  obtain ⟨herror, htie⟩ := roundQuotient_error a hd
  generalize roundQuotient a (den * 2 ^ p) = m at herror htie heven ⊢
  -- in multiples of the divisor
  have hmultiple (k : Nat) : ((k * 2 ^ p : Nat) : Int) * den = k * (den * 2 ^ p : Nat) := by push_cast; ring
  rw [hmultiple]
  rcases y.units_grid p with ⟨k, hk⟩ | ⟨hp, hsmall⟩
  · obtain ⟨hnearest, hhalf⟩ := nearest_of_error herror k
    rw [hk, hmultiple]
    refine ⟨hnearest, fun hne heq => heven (htie (hhalf ?_ heq))⟩
    intro hkm
    exact hne (by rw [Int.natCast_inj.1 hkm])
  · -- `y` lies below the numbers of this power, and these below the quotient
    obtain ⟨hnearest, -⟩ := nearest_of_error herror exponentPlace
    have hplace : exponentPlace * (den * 2 ^ p) ≤ a :=
      (Nat.le_div_iff_mul_le hd).1 (hbounds.resolve_right (Nat.pos_iff_ne_zero.1 hp))
    have hbelow : y.units * den < exponentPlace * (den * 2 ^ p) := by
      have h := Nat.mul_lt_mul_of_pos_right hsmall hden
      rwa [Nat.mul_assoc, Nat.mul_comm (2 ^ p)] at h
    have hplace' : 0 ≤ (a : Int) - exponentPlace * (den * 2 ^ p : Nat) := by
      rw [sub_nonneg]
      exact_mod_cast hplace
    have hbelow' : (y.units : Int) * den < exponentPlace * (den * 2 ^ p : Nat) := by exact_mod_cast hbelow
    rw [abs_of_nonneg hplace'] at hnearest
    rw [abs_of_nonneg (a := (a : Int) - y.units * den) (by linarith)]
    exact ⟨by linarith, fun _ heq => by linarith⟩

/-! ## Rounding an integer -/

/-- A finite number with its sign, in units of `2 ^ -1074`. -/
def signedUnits (x : Binary64) : Int := if x.isNegative then -x.units else x.units

/-- The number is the one that the integer is rounded to: no finite number is nearer, and
if another one is as near, the significand is even. -/
structure IsNearest (x : Binary64) (n : Int) : Prop where
  finite : x.isFinite
  nearest (y : Binary64) : y.isFinite → |n * one - x.signedUnits| ≤ |n * one - y.signedUnits|
  even (y : Binary64) : y.isFinite → y.signedUnits ≠ x.signedUnits →
    |n * one - y.signedUnits| = |n * one - x.signedUnits| → x.significand % 2 = 0

theorem abs_signedUnits (x : Binary64) : |x.signedUnits| = x.units := by
  unfold signedUnits
  split <;> simp

theorem distance_natAbs (n : Int) (x : Binary64) : x.distance n.natAbs 1 = |(|n * one| - |x.signedUnits|)| := by
  rw [distance, abs_signedUnits, abs_mul, Int.abs_eq_natAbs n, Nat.abs_cast, Nat.cast_one, mul_one, Nat.cast_mul]

theorem log2_mul_le {n k u e : Nat} (hn : n < 2 ^ k) (hu : u = Nat.pow 2 e) : (n * u).log2 ≤ k + e := by
  subst hu
  by_cases hzero : n * 2 ^ e = 0
  · simp [hzero]
  · refine ((Nat.log2_lt hzero).2 ?_).le
    rw [Nat.pow_add]
    exact Nat.mul_lt_mul_of_pos_right hn (Nat.two_pow_pos e)

/-- Integers of 64 bits are far from the largest finite number. -/
theorem ratio_finite {num : Nat} (h : num < 2 ^ 64) :
    ratioPower num 1 * exponentPlace + ratioSignificand num 1 < infiniteMagnitude := by
  have hone : one = Nat.pow 2 1074 := by unfold one; rfl
  have hpower : ratioPower num 1 ≤ 64 + 1074 - 52 := by
    unfold ratioPower
    rw [Nat.div_one]
    exact Nat.sub_le_sub_right (log2_mul_le h hone) 52
  have hle := ratioSignificand_le num 1
  unfold infiniteMagnitude exponentPlace at *
  omega

theorem isNegative_ofInt {n : Int} (h : n.natAbs < 2 ^ 64) : (ofInt n).isNegative = decide (n < 0) := by
  rw [ofInt, ofRatio_eq, Nat.min_eq_left (ratio_finite h).le]
  exact isNegative_ofMagnitude _ (ratio_finite h)

/-- The sign of the integer is kept: the two are as far apart as their magnitudes. -/
theorem distance_ofInt {n : Int} (h : n.natAbs < 2 ^ 64) :
    |n * one - (ofInt n).signedUnits| = (ofInt n).distance n.natAbs 1 := by
  have hone : (0 : Int) ≤ one := Int.natCast_nonneg one
  rw [distance_natAbs, abs_signedUnits, signedUnits, isNegative_ofInt h]
  by_cases hn : n < 0
  · rw [if_pos (decide_eq_true hn), abs_of_nonpos (mul_nonpos_of_nonpos_of_nonneg hn.le hone), ← abs_neg]
    congr 1
    ring
  · rw [if_neg (by simpa using hn), abs_of_nonneg (mul_nonneg (not_lt.1 hn) hone)]

theorem distance_le (n : Int) (y : Binary64) : y.distance n.natAbs 1 ≤ |n * one - y.signedUnits| := by
  rw [distance_natAbs]
  exact abs_abs_sub_abs_le _ _

/-- **An integer of 64 bits is rounded to the nearest number.** -/
theorem ofInt_isNearest {n : Int} (h : n.natAbs < 2 ^ 64) : (ofInt n).IsNearest n where
  finite := by
    rw [ofInt, ofRatio_eq, Nat.min_eq_left (ratio_finite h).le]
    exact isFinite_ofMagnitude _ (ratio_finite h)
  nearest y _ := by
    rw [distance_ofInt h]
    exact (ofRatio_nearest _ Nat.one_pos (ratio_finite h) y).1.trans (distance_le n y)
  even y _ hne heq := by
    by_cases hunits : y.units = (ofInt n).units
    · -- the same number with the other sign is as near only to zero, which has one value
      have hopposite : y.signedUnits = -(ofInt n).signedUnits := by
        refine (abs_eq_abs.1 ?_).resolve_left hne
        rw [abs_signedUnits, abs_signedUnits, hunits]
      have hzero : (ofInt n).signedUnits = 0 := by
        rw [hopposite] at heq
        rcases abs_eq_abs.1 heq with heq | heq
        · linarith
        · have hn : n * one = 0 := by linarith
          have hnearest := (ofRatio_nearest (n < 0) Nat.one_pos (ratio_finite h) ⟨0⟩).1
          have hunits : (Binary64.mk 0).units = 0 := by decide
          rw [distance_natAbs, distance_natAbs, hn, abs_signedUnits ⟨0⟩, hunits] at hnearest
          simpa [ofInt] using hnearest
      exact absurd (by rw [hopposite, hzero, neg_zero]) hne
    · obtain ⟨hle, htie⟩ := ofRatio_nearest (n < 0) Nat.one_pos (ratio_finite h) y
      refine htie hunits (le_antisymm ?_ hle)
      calc y.distance n.natAbs 1 ≤ |n * one - y.signedUnits| := distance_le n y
        _ = |n * one - (ofInt n).signedUnits| := heq
        _ = (ofInt n).distance n.natAbs 1 := distance_ofInt h

end ParamQuery.Binary64
