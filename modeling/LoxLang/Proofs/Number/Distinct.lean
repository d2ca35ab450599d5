import LoxLang.Proofs.Number.Shortest

/-!
Intervals of doubles. The rationals that round to a double lie between it and its neighbours, and two
doubles share no rational, as the mantissa decides who has an end that two intervals have in common.
Main statement: `RoundsTo.unique`.
-/
namespace LoxLang.Number

section

variable {m m' : Nat} {e e' : Int} {x : ℚ}

theorem RoundsTo.le (h : RoundsTo m e x) :
    ((Shortest.interval m e).low : ℚ) * ((2 : ℚ) ^ e / 4) ≤ x ∧
      x ≤ (Shortest.interval m e).high * ((2 : ℚ) ^ e / 4) := by
  unfold RoundsTo at h
  dsimp only at h
  split at h
  · exact h
  · exact ⟨h.1.le, h.2.le⟩

/-- The ends of an interval do not round to an odd mantissa. -/
theorem RoundsTo.lt (h : RoundsTo m e x) (hodd : m % 2 = 1) :
    ((Shortest.interval m e).low : ℚ) * ((2 : ℚ) ^ e / 4) < x ∧
      x < (Shortest.interval m e).high * ((2 : ℚ) ^ e / 4) := by
  have hopen : ¬(Shortest.interval m e).closed = true := by simp [Shortest.interval, hodd]
  unfold RoundsTo at h
  rwa [if_neg hopen] at h

theorem low_le (m : Nat) (e : Int) : (4 * m - 2 : ℚ) ≤ (Shortest.interval m e).low := by
  have hnat : 4 * m ≤ (Shortest.interval m e).low + 2 := by
    simp only [Shortest.interval]
    split <;> omega
  have : (4 * m : ℚ) ≤ (Shortest.interval m e).low + 2 := by exact_mod_cast hnat
  linarith

theorem high_eq (m : Nat) (e : Int) : ((Shortest.interval m e).high : ℚ) = 4 * m + 2 := by
  simp [Shortest.interval]

/-- With the same exponent only neighbours can share an end, and one of them is odd. -/
theorem RoundsTo.mantissa_le (h : RoundsTo m e x) (h' : RoundsTo m' e x) : m' ≤ m := by
  have hquarter : (0 : ℚ) < (2 : ℚ) ^ e / 4 := by positivity
  by_contra hlt
  have hle : (m : ℚ) + 1 ≤ m' := by exact_mod_cast Nat.not_le.mp hlt
  have hupper := h.le.2
  have hlower := h'.le.1
  have hlow := low_le m' e
  rw [high_eq] at hupper
  have hshared : (m' : ℚ) ≤ m + 1 := by nlinarith
  have hnext : m' = m + 1 := by exact_mod_cast le_antisymm hshared hle
  rcases Nat.mod_two_eq_zero_or_one m with heven | hodd
  · have hlower := (h'.lt (by omega)).1
    nlinarith
  · have hupper := (h.lt hodd).2
    rw [high_eq] at hupper
    nlinarith

/-- The interval of a double with a full mantissa does not reach far down. -/
theorem le_low (hleading : 2 ^ 52 ≤ m) (hleast : Binary.minExponent < e) :
    (2 ^ 54 - 1 : ℚ) ≤ (Shortest.interval m e).low := by
  have hnat : 2 ^ 54 ≤ (Shortest.interval m e).low + 1 := by
    by_cases hpower : m = 2 ^ 52
    · rw [Shortest.interval, if_pos ⟨hpower, hleast⟩]
      show 2 ^ 54 ≤ 4 * m - 1 + 1
      omega
    · rw [Shortest.interval, if_neg fun hp => hpower hp.1]
      show 2 ^ 54 ≤ 4 * m - 2 + 1
      omega
  have : (2 ^ 54 : ℚ) ≤ (Shortest.interval m e).low + 1 := by exact_mod_cast hnat
  linarith

/-- The interval of a double with a larger exponent lies above. -/
theorem RoundsTo.exponent_le (h : Canonical m e) (h' : Canonical m' e') (hx : RoundsTo m e x)
    (hx' : RoundsTo m' e' x) : e' ≤ e := by
  by_contra hlt
  have hquarter : (0 : ℚ) < (2 : ℚ) ^ e / 4 := by positivity
  have hleast : Binary.minExponent < e' := lt_of_le_of_lt h.least (not_le.mp hlt)
  have hlow := le_low (h'.leading.resolve_right hleast.ne') hleast
  have hscale : 2 * ((2 : ℚ) ^ e / 4) ≤ (2 : ℚ) ^ e' / 4 := by
    have hpow : (2 : ℚ) ^ (e + 1) ≤ (2 : ℚ) ^ e' := zpow_le_zpow_right₀ (by norm_num) (by omega)
    rw [zpow_add₀ (by norm_num), zpow_one] at hpow
    linarith
  have hlower : (2 ^ 55 - 2 : ℚ) * ((2 : ℚ) ^ e / 4) ≤ x := by
    refine le_trans ?_ hx'.le.1
    calc (2 ^ 55 - 2 : ℚ) * ((2 : ℚ) ^ e / 4) = (2 ^ 54 - 1) * (2 * ((2 : ℚ) ^ e / 4)) := by ring
      _ ≤ (Shortest.interval m' e').low * ((2 : ℚ) ^ e' / 4) := by gcongr
  -- the largest mantissa is odd, so it does not share its upper end
  rcases Nat.mod_two_eq_zero_or_one m with heven | hodd
  · have hm : (m : ℚ) ≤ 2 ^ 53 - 2 := by
      have hnat : m + 2 ≤ 2 ^ 53 := by have := h.mantissa_lt; omega
      have : (m : ℚ) + 2 ≤ 2 ^ 53 := by exact_mod_cast hnat
      linarith
    have hupper := hx.le.2
    rw [high_eq] at hupper
    nlinarith
  · have hm : (m : ℚ) ≤ 2 ^ 53 - 1 := by
      have : (m : ℚ) + 1 ≤ 2 ^ 53 := by exact_mod_cast h.mantissa_lt
      linarith
    have hupper := (hx.lt hodd).2
    rw [high_eq] at hupper
    nlinarith

/-- A rational rounds to one double at most. -/
theorem RoundsTo.unique (h : Canonical m e) (h' : Canonical m' e') (hx : RoundsTo m e x)
    (hx' : RoundsTo m' e' x) : m = m' ∧ e = e' := by
  obtain rfl : e = e' :=
    le_antisymm (hx'.exponent_le h' h hx) (hx.exponent_le h h' hx')
  exact ⟨le_antisymm (hx'.mantissa_le hx) (hx.mantissa_le hx'), rfl⟩

/-- A double rounds to itself. -/
theorem roundsTo_magnitude (m : Nat) (e : Int) : RoundsTo m e (magnitude m e) := by
  have hquarter : (0 : ℚ) < (2 : ℚ) ^ e / 4 := by positivity
  have hvalue : magnitude m e = 4 * m * ((2 : ℚ) ^ e / 4) := by rw [magnitude]; ring
  have hhigh := high_eq m e
  have hlow : ((Shortest.interval m e).low : ℚ) ≤ 4 * m := by
    have hnat : (Shortest.interval m e).low ≤ 4 * m := by
      simp only [Shortest.interval]
      split <;> omega
    exact_mod_cast hnat
  unfold RoundsTo
  dsimp only
  rw [hvalue, hhigh]
  split
  · exact ⟨by gcongr, by gcongr; linarith⟩
  · next hopen =>
    have hlt : ((Shortest.interval m e).low : ℚ) < 4 * m := by
      have hnat : (Shortest.interval m e).low < 4 * m := by
        simp only [Shortest.interval, decide_eq_true_eq] at hopen ⊢
        split <;> omega
      exact_mod_cast hnat
    exact ⟨by gcongr, by gcongr; linarith⟩

end

end LoxLang.Number
