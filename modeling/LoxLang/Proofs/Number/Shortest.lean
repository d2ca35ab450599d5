import Mathlib.Algebra.Order.Field.Power
import Mathlib.Data.Rat.Lemmas
import Mathlib.Tactic.FieldSimp
import Mathlib.Tactic.Linarith
import Mathlib.Tactic.NormNum
import Mathlib.Tactic.Positivity
import Mathlib.Tactic.Ring
import LoxLang.Number.Text

/-!
The shortest decimal reads back. The reals that round to a double are an interval around it; on some grid of
powers of ten, of the seventeen that are tried, a neighbour of the double lies inside the interval, so
the search ends with a decimal that does. Main statement: `shortest_roundsTo`.
-/
namespace LoxLang.Number

namespace Ratio

def toRat (r : Ratio) : ℚ := r.num / r.den

theorem den_scale_pos {r : Ratio} (hr : 0 < r.den) {b : Nat} (hb : 0 < b) (e : Int) :
    0 < (r.scale b e).den := by
  unfold scale
  split
  · exact hr
  · exact Nat.mul_pos hr (Nat.pow_pos hb)

/-- Scaling multiplies the value by the power. -/
theorem toRat_scale (r : Ratio) (b : Nat) (e : Int) :
    (r.scale b e).toRat = r.toRat * (b : ℚ) ^ e := by
  unfold scale toRat
  split
  · next h =>
    obtain ⟨n, rfl⟩ := Int.eq_ofNat_of_zero_le h
    simp only [Int.toNat_natCast, Nat.pow_eq, Nat.cast_mul, Nat.cast_pow, zpow_natCast]
    ring
  · next h =>
    obtain ⟨n, rfl⟩ : ∃ n : Nat, e = -(n : Int) := ⟨(-e).toNat, by omega⟩
    simp only [neg_neg, Int.toNat_natCast, Nat.pow_eq, Nat.cast_mul, Nat.cast_pow, zpow_neg,
      zpow_natCast]
    rw [div_mul_eq_div_div, div_eq_mul_inv _ ((b : ℚ) ^ n)]

/-- The test for a power of ten compares the values. -/
theorem reachesPowerOfTen_iff {r : Ratio} (hr : 0 < r.den) (e : Int) :
    r.reachesPowerOfTen e = true ↔ (10 : ℚ) ^ e ≤ r.toRat := by
  have hden : (0 : ℚ) < (r.scale 10 (-e)).den := by
    exact_mod_cast den_scale_pos hr (by decide) (-e)
  have hten : (0 : ℚ) < (10 : ℚ) ^ e := by positivity
  have hscale : (r.scale 10 (-e)).toRat = r.toRat * (10 : ℚ) ^ (-e) := toRat_scale r 10 (-e)
  rw [reachesPowerOfTen, decide_eq_true_iff]
  calc (r.scale 10 (-e)).den ≤ (r.scale 10 (-e)).num
      ↔ 1 ≤ (r.scale 10 (-e)).toRat := by
        rw [toRat, one_le_div hden]
        exact Nat.cast_le.symm
    _ ↔ (10 : ℚ) ^ e ≤ r.toRat := by
      rw [hscale, zpow_neg, ← div_eq_mul_inv, one_le_div hten]

end Ratio

/-- The mantissas and exponents of doubles: a mantissa has its leading bit unless the exponent is the
least one. -/
structure Canonical (mantissa : Nat) (exponent : Int) : Prop where
  mantissa_lt : mantissa < 2 ^ 53
  least : -1074 ≤ exponent
  most : exponent ≤ 971
  leading : 2 ^ 52 ≤ mantissa ∨ exponent = -1074

def magnitude (mantissa : Nat) (exponent : Int) : ℚ := mantissa * (2 : ℚ) ^ exponent

def RoundsTo (mantissa : Nat) (exponent : Int) (x : ℚ) : Prop :=
  let i := Shortest.interval mantissa exponent
  let quarter := (2 : ℚ) ^ exponent / 4
  if i.closed then i.low * quarter ≤ x ∧ x ≤ i.high * quarter
  else i.low * quarter < x ∧ x < i.high * quarter

namespace Shortest

/-- Thirty thousand one hundred and three parts of a hundred thousand are a little more than the
logarithm of two, so that for exponents of doubles the estimate is too large by one at most. -/
theorem ten_zpow_le_two_zpow {k l : Int} (hk : k * 100000 ≤ l * 30103) (hlow : -2000 ≤ l)
    (hhigh : l ≤ 2000) : (10 : ℚ) ^ (k - 1) ≤ (2 : ℚ) ^ l := by
  rcases le_total 0 l with hl | hl
  · refine (pow_le_pow_iff_left₀ (by positivity) (by positivity) (n := 196) (by decide)).mp ?_
    calc ((10 : ℚ) ^ (k - 1)) ^ 196 = (10 : ℚ) ^ ((k - 1) * 196) := by
          rw [zpow_mul, ← zpow_natCast]; rfl
      _ ≤ (10 : ℚ) ^ (59 * l) := zpow_le_zpow_right₀ (by norm_num) (by omega)
      _ = ((10 : ℚ) ^ 59) ^ l := by rw [zpow_mul]; rfl
      _ ≤ ((2 : ℚ) ^ 196) ^ l := zpow_le_zpow_left₀ hl (by positivity) (by norm_num)
      _ = ((2 : ℚ) ^ l) ^ 196 := by rw [← zpow_natCast, ← zpow_natCast, zpow_comm]
  · obtain ⟨n, rfl⟩ : ∃ n : Nat, l = -(n : Int) := ⟨(-l).toNat, by omega⟩
    refine (pow_le_pow_iff_left₀ (by positivity) (by positivity) (n := 93) (by decide)).mp ?_
    calc ((10 : ℚ) ^ (k - 1)) ^ 93 = (10 : ℚ) ^ ((k - 1) * 93) := by
          rw [zpow_mul, ← zpow_natCast]; rfl
      _ ≤ (10 : ℚ) ^ (28 * (-(n : Int))) := zpow_le_zpow_right₀ (by norm_num) (by omega)
      _ = (((10 : ℚ) ^ 28) ^ n)⁻¹ := by rw [zpow_mul, zpow_neg, zpow_natCast]; rfl
      _ ≤ (((2 : ℚ) ^ 93) ^ n)⁻¹ := by gcongr; norm_num
      _ = ((2 : ℚ) ^ (-(n : Int))) ^ 93 := by
          rw [zpow_neg, zpow_natCast, inv_pow, ← pow_mul, ← pow_mul, Nat.mul_comm]

/-- The estimate is not too large: the power of ten is not above the double. -/
theorem ten_zpow_decimalExponent_le {m : Nat} {e : Int} (h : Canonical m e) (hm : 0 < m) :
    (10 : ℚ) ^ decimalExponent m e ≤ magnitude m e := by
  have hvalue : (Ratio.scale ⟨m, 1⟩ 2 e).toRat = magnitude m e := by
    rw [Ratio.toRat_scale, Ratio.toRat, magnitude]
    simp
  have hden : 0 < (Ratio.scale ⟨m, 1⟩ 2 e).den := Ratio.den_scale_pos Nat.one_pos (by decide) e
  unfold decimalExponent
  dsimp only
  split
  · next hreaches =>
    rw [← hvalue]
    exact (Ratio.reachesPowerOfTen_iff hden _).mp hreaches
  split
  · next hreaches =>
    rw [← hvalue]
    exact (Ratio.reachesPowerOfTen_iff hden _).mp hreaches
  · have hlog : m.log2 ≤ 52 := by
      have hlt := (Nat.log2_lt hm.ne').mpr h.mantissa_lt
      omega
    have hfloor : (((m.log2 : Int) + e) * 30103).fdiv 100000 * 100000 ≤
        ((m.log2 : Int) + e) * 30103 := by
      rw [Int.fdiv_eq_ediv_of_nonneg _ (by decide)]
      exact Int.ediv_mul_le _ (by decide)
    have hleast := h.least
    have hmost := h.most
    calc (10 : ℚ) ^ ((((m.log2 : Int) + e) * 30103).fdiv 100000 - 1)
        ≤ (2 : ℚ) ^ ((m.log2 : Int) + e) := ten_zpow_le_two_zpow hfloor (by omega) (by omega)
      _ = (2 : ℚ) ^ m.log2 * (2 : ℚ) ^ e := by
        rw [zpow_add₀ (by norm_num), zpow_natCast]
      _ ≤ m * (2 : ℚ) ^ e := by
        gcongr
        exact_mod_cast Nat.log2_self_le hm.ne'
      _ = magnitude m e := rfl

def unit (exponent k : Int) : Ratio := ((Ratio.mk 1 4).scale 2 exponent).scale 10 (-k)

theorem unit_den_pos (e k : Int) : 0 < (unit e k).den :=
  Ratio.den_scale_pos (Ratio.den_scale_pos (by decide) (by decide) e) (by decide) (-k)

theorem toRat_unit (e k : Int) : (unit e k).toRat * (10 : ℚ) ^ k = (2 : ℚ) ^ e / 4 := by
  have hten : (10 : ℚ) ^ k ≠ 0 := by positivity
  rw [unit, Ratio.toRat_scale, Ratio.toRat_scale, Ratio.toRat]
  push_cast
  rw [mul_assoc, ← zpow_add₀ (by norm_num), neg_add_cancel, zpow_zero]
  ring

theorem mul_num_le_iff {r : Ratio} (hr : 0 < r.den) (a p : Nat) :
    a * r.num ≤ p * r.den ↔ (a : ℚ) * r.toRat ≤ p := by
  have hden : (0 : ℚ) < r.den := by exact_mod_cast hr
  rw [Ratio.toRat, ← mul_div_assoc, div_le_iff₀ hden]
  exact_mod_cast Iff.rfl

theorem le_mul_num_iff {r : Ratio} (hr : 0 < r.den) (a p : Nat) :
    p * r.den ≤ a * r.num ↔ (p : ℚ) ≤ a * r.toRat := by
  have hden : (0 : ℚ) < r.den := by exact_mod_cast hr
  rw [Ratio.toRat, ← mul_div_assoc, le_div_iff₀ hden]
  exact_mod_cast Iff.rfl

/-- A grid point lies in the interval, which has its ends or not, if its value does. -/
theorem contains_iff {i : Interval} {r : Ratio} (hr : 0 < r.den) (p : Nat) :
    i.contains r p = true ↔
      if i.closed then (i.low : ℚ) * r.toRat ≤ p ∧ (p : ℚ) ≤ i.high * r.toRat
      else (i.low : ℚ) * r.toRat < p ∧ (p : ℚ) < i.high * r.toRat := by
  unfold Interval.contains
  cases i.closed
  · simp only [Bool.false_eq_true, if_false, Bool.and_eq_true, decide_eq_true_eq]
    exact and_congr (lt_iff_lt_of_le_iff_le (le_mul_num_iff hr _ _))
      (lt_iff_lt_of_le_iff_le (mul_num_le_iff hr _ _))
  · simp only [if_true, Bool.and_eq_true, decide_eq_true_eq]
    rw [mul_num_le_iff hr, le_mul_num_iff hr]

/-- A point of a grid that lies in the interval rounds to the double. -/
theorem roundsTo_of_contains {m : Nat} {e k : Int} {p : Nat}
    (h : (interval m e).contains (unit e k) p = true) : RoundsTo m e (p * (10 : ℚ) ^ k) := by
  have hten : (0 : ℚ) < (10 : ℚ) ^ k := by positivity
  rw [contains_iff (unit_den_pos e k)] at h
  unfold RoundsTo
  dsimp only
  rw [← toRat_unit e k, ← mul_assoc, ← mul_assoc]
  split
  · next hclosed =>
    rw [if_pos hclosed] at h
    exact ⟨mul_le_mul_of_nonneg_right h.1 hten.le, mul_le_mul_of_nonneg_right h.2 hten.le⟩
  · next hopen =>
    rw [if_neg hopen] at h
    exact ⟨mul_lt_mul_of_pos_right h.1 hten, mul_lt_mul_of_pos_right h.2 hten⟩

section

variable {m : Nat} {e k : Int}

theorem unit_toRat_pos (e k : Int) : 0 < (unit e k).toRat := by
  have hten : (0 : ℚ) < (10 : ℚ) ^ k := by positivity
  have hquarter : (0 : ℚ) < (2 : ℚ) ^ e / 4 := by positivity
  rw [← toRat_unit e k] at hquarter
  exact (mul_pos_iff_of_pos_right hten).mp hquarter

/-- What lies inside the interval is contained in it, whether or not the ends are. -/
theorem contains_of_lt {i : Interval} {r : Ratio} (hr : 0 < r.den) {p : Nat}
    (hlow : (i.low : ℚ) * r.toRat < p) (hhigh : (p : ℚ) < i.high * r.toRat) :
    i.contains r p = true := by
  rw [contains_iff hr]
  split
  · exact ⟨hlow.le, hhigh.le⟩
  · exact ⟨hlow, hhigh⟩

/-- On a grid with sixteen digits before the last place the interval is longer than a step. -/
theorem one_lt_length (h : Canonical m e) (hm : 0 < m)
    (hk : (10 : ℚ) ^ (k + 16) ≤ magnitude m e) :
    ((interval m e).low : ℚ) * (unit e k).toRat + 1 < (interval m e).high * (unit e k).toRat := by
  have hu := unit_toRat_pos e k
  have hten : (0 : ℚ) < (10 : ℚ) ^ k := by positivity
  have hsteps : (10 : ℚ) ^ 16 ≤ 4 * m * (unit e k).toRat := by
    refine le_of_mul_le_mul_right ?_ hten
    calc (10 : ℚ) ^ 16 * (10 : ℚ) ^ k = (10 : ℚ) ^ (k + 16) := by
          rw [zpow_add₀ (by norm_num), mul_comm]; rfl
      _ ≤ m * (2 : ℚ) ^ e := hk
      _ = 4 * m * ((unit e k).toRat * (10 : ℚ) ^ k) := by rw [toRat_unit]; ring
      _ = 4 * m * (unit e k).toRat * (10 : ℚ) ^ k := by ring
  have hhigh : ((interval m e).high : ℚ) = 4 * m + 2 := by simp [interval]
  by_cases hpower : m = Binary.leadingBit ∧ Binary.minExponent < e
  · have hlow : ((interval m e).low : ℚ) + 1 = 4 * m := by
      have hnat : (interval m e).low + 1 = 4 * m := by
        simp only [interval, if_pos hpower]
        omega
      exact_mod_cast hnat
    have hmantissa : (m : ℚ) = 2 ^ 52 := by rw [hpower.1]; norm_num [Binary.leadingBit]
    rw [hmantissa] at hsteps
    rw [hhigh, ← hlow]
    linarith
  · have hlow : ((interval m e).low : ℚ) + 2 = 4 * m := by
      have hnat : (interval m e).low + 2 = 4 * m := by
        simp only [interval, if_neg hpower]
        omega
      exact_mod_cast hnat
    have hmantissa : (m : ℚ) ≤ 2 ^ 53 := by exact_mod_cast h.mantissa_lt.le
    have hsteps' : (10 : ℚ) ^ 16 ≤ 4 * 2 ^ 53 * (unit e k).toRat := hsteps.trans (by gcongr)
    rw [hhigh, ← hlow]
    linarith

/-- Of the two neighbours of a double on such a grid one lies inside the interval. -/
theorem onGrid?_ne_none (tie : Tie) (h : Canonical m e) (hm : 0 < m)
    (hk : (10 : ℚ) ^ (k + 16) ≤ magnitude m e) : onGrid? tie (interval m e) e k ≠ none := by
  have hden := unit_den_pos e k
  have hu := unit_toRat_pos e k
  have hlength := one_lt_length h hm hk
  have hvalue : ((interval m e).value : ℚ) + 2 = (interval m e).high := by simp [interval]
  have hlow : ((interval m e).low : ℚ) + 1 ≤ (interval m e).value := by
    have hnat : (interval m e).low + 1 ≤ (interval m e).value := by
      simp only [interval]
      split <;> omega
    exact_mod_cast hnat
  let p := (interval m e).value * (unit e k).num / (unit e k).den
  have hp : (p : ℚ) ≤ (interval m e).value * (unit e k).toRat :=
    (le_mul_num_iff hden _ p).mp (Nat.div_mul_le_self _ _)
  have hp' : ((interval m e).value : ℚ) * (unit e k).toRat < (p + 1 : Nat) :=
    (lt_iff_lt_of_le_iff_le (le_mul_num_iff hden _ _)).mp
      ((Nat.div_lt_iff_lt_mul hden).mp (Nat.lt_succ_self p))
  have hone : (interval m e).contains (unit e k) p = true ∨
      (interval m e).contains (unit e k) (p + 1) = true := by
    push_cast at hp'
    -- if that point is below the interval, the next one is inside, since no step jumps over it
    rcases lt_or_ge ((interval m e).low * (unit e k).toRat) p with hbelow | hbelow
    · exact .inl (contains_of_lt hden hbelow (by nlinarith))
    · exact .inr (contains_of_lt hden (by push_cast; nlinarith) (by push_cast; linarith))
  intro hnone
  unfold onGrid? at hnone
  dsimp only at hnone
  split at hnone
  · cases hnone
  · cases hnone
  · cases hnone
  · next hfirst hsecond =>
    rcases hone with hin | hin
    · exact Bool.false_ne_true (hfirst.symm.trans hin)
    · exact Bool.false_ne_true (hsecond.symm.trans hin)

/-- A point that is taken on a grid is contained in the interval. -/
theorem contains_of_onGrid? {tie : Tie} {i : Interval} {p : Nat}
    (h : onGrid? tie i e k = some p) : i.contains (unit e k) p = true := by
  unfold onGrid? at h
  dsimp only at h
  split at h
  · next hfirst hsecond =>
    split at h
    · cases h
      exact hsecond
    · cases h
      exact hfirst
  · next hfirst _ =>
    cases h
    exact hfirst
  · next _ hsecond =>
    cases h
    exact hsecond
  · cases h

/-- If there is a point on one of the grids, then the search ends with a point of a grid. -/
theorem search_eq {tie : Tie} {i : Interval} {n j : Nat} (hj : j < n)
    (h : onGrid? tie i e (k - j) ≠ none) :
    ∃ k' p, search tie i e n k = ⟨p, k'⟩ ∧ onGrid? tie i e k' = some p := by
  induction n generalizing k j with
  | zero => exact absurd hj (Nat.not_lt_zero j)
  | succ n ih =>
    unfold search
    cases hgrid : onGrid? tie i e k with
    | some p => exact ⟨k, p, rfl, hgrid⟩
    | none =>
      cases j with
      | zero => exact absurd hgrid (by simpa using h)
      | succ j =>
        refine ih (Nat.lt_of_succ_lt_succ hj) ?_
        have hstep : k - 1 - (j : Int) = k - ((j + 1 : Nat) : Int) := by push_cast; ring
        rwa [hstep]

end

end Shortest

namespace Decimal

def toRat (d : Decimal) : ℚ := d.digits * (10 : ℚ) ^ d.exponent

/-- Trailing zeros count for the exponent. -/
theorem toRat_trim (n : Nat) (d : Decimal) : (d.trim n).toRat = d.toRat := by
  induction n generalizing d with
  | zero => rfl
  | succ n ih =>
    unfold trim
    split
    · next h =>
      have hdigits : (d.digits : ℚ) = ((d.digits / 10 : Nat) : ℚ) * 10 := by
        exact_mod_cast (Nat.div_mul_cancel (Nat.dvd_of_mod_eq_zero h.2)).symm
      rw [ih, toRat, toRat, hdigits, zpow_add₀ (by norm_num), zpow_one]
      ring
    · rfl

end Decimal

/-- The shortest decimal of a double rounds to the double. -/
theorem shortest_roundsTo (tie : Tie) {m : Nat} {e : Int} (h : Canonical m e) (hm : 0 < m) :
    RoundsTo m e (shortest tie m e).toRat := by
  let first := Shortest.decimalExponent m e
  have hfirst : (10 : ℚ) ^ (first - (16 : Nat) + 16) ≤ magnitude m e := by
    rw [Nat.cast_ofNat, sub_add_cancel]
    exact Shortest.ten_zpow_decimalExponent_le h hm
  obtain ⟨k, p, hsearch, hgrid⟩ := Shortest.search_eq (n := 17) (by decide)
    (Shortest.onGrid?_ne_none tie h hm hfirst)
  have hshortest : shortest tie m e = Decimal.trim 17 ⟨p, k⟩ := congrArg (Decimal.trim 17) hsearch
  rw [hshortest, Decimal.toRat_trim]
  exact Shortest.roundsTo_of_contains (Shortest.contains_of_onGrid? hgrid)

end LoxLang.Number
