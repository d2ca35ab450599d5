import Mathlib.Data.Nat.Cast.Field
import LoxLang.Proofs.Number.Distinct
import LoxLang.Proofs.Token.Ends

/-!
Numerals. The text of a double in a tree is made of digits with at most one point among them, and the
number that it writes down rounds to the double. Main statement: `writes_treeText`.
-/
namespace LoxLang.Number

def decimalValue (cs : List Char) : ℚ :=
  let whole := cs.takeWhile (· != '.')
  let fraction := (cs.dropWhile (· != '.')).tail
  (Nat.ofDigitChars 10 (whole ++ fraction) 0 : ℚ) / 10 ^ fraction.length

def IsNumeral (cs : List Char) : Prop :=
  ∃ d ds, cs = d :: ds ∧ d.isDigit = true ∧ ∀ c ∈ ds, c.isDigit = true ∨ c = '.'

structure Writes (cs : List Char) (x : ℚ) : Prop where
  numeral : IsNumeral cs
  value : decimalValue cs = x

section

variable {ds fs : List Char} {n : Nat}

theorem writes_whole (hne : ds ≠ []) (hds : ∀ d ∈ ds, d.isDigit = true)
    (hvalue : Nat.ofDigitChars 10 ds 0 = n) : Writes ds n where
  numeral := by
    obtain ⟨d, ds, rfl⟩ := List.exists_cons_of_ne_nil hne
    exact ⟨d, ds, rfl, hds d List.mem_cons_self, fun c hc => .inl (hds c (List.mem_cons_of_mem d hc))⟩
  value := by
    obtain ⟨hwhole, hfraction⟩ := span_digits hds
    rw [decimalValue, hwhole, hfraction, List.tail_nil, List.append_nil, hvalue, List.length_nil,
      pow_zero, div_one]

/-- Every digit behind the point divides by ten. -/
theorem writes_fraction (hne : ds ≠ []) (hds : ∀ d ∈ ds, d.isDigit = true)
    (hfs : ∀ d ∈ fs, d.isDigit = true) (hvalue : Nat.ofDigitChars 10 (ds ++ fs) 0 = n) :
    Writes (ds ++ '.' :: fs) (n * (10 : ℚ) ^ (-fs.length : Int)) where
  numeral := by
    obtain ⟨d, ds, rfl⟩ := List.exists_cons_of_ne_nil hne
    refine ⟨d, ds ++ '.' :: fs, rfl, hds d List.mem_cons_self, fun c hc => ?_⟩
    rcases List.mem_append.mp hc with hc | hc
    · exact .inl (hds c (List.mem_cons_of_mem d hc))
    rcases List.mem_cons.mp hc with rfl | hc
    · exact .inr rfl
    · exact .inl (hfs c hc)
  value := by
    obtain ⟨hwhole, hfraction⟩ := span_digits_point hds fs
    rw [decimalValue, hwhole, hfraction, List.tail_cons, hvalue, zpow_neg, zpow_natCast, div_eq_mul_inv]

end

theorem toList_zeros (n : Nat) : (zeros n).toList = List.replicate n '0' := by
  rw [zeros, String.pushn_eq_repeat_push]
  induction n with
  | zero => rfl
  | succ n ih => rw [Nat.repeat, String.toList_push, ih, List.replicate_succ']

theorem isDigit_of_mem_replicate {n : Nat} : ∀ c ∈ List.replicate n '0', c.isDigit = true := by
  intro c hc
  rw [(List.mem_replicate.mp hc).2]
  rfl

section

variable {digits : String} {n : Nat}

/-- Zeros between the point and the digits. -/
theorem writes_zeros_before (hdigits : ∀ d ∈ digits.toList, d.isDigit = true)
    (hvalue : Nat.ofDigitChars 10 digits.toList 0 = n) (k : Nat) :
    Writes ("0." ++ zeros k ++ digits).toList
      (n * (10 : ℚ) ^ (-(k + digits.length : Nat) : Int)) := by
  have htext : ("0." ++ zeros k ++ digits).toList =
      ['0'] ++ '.' :: (List.replicate k '0' ++ digits.toList) := by
    simp only [String.toList_append, toList_zeros]
    rfl
  have hlength : k + digits.length = (List.replicate k '0' ++ digits.toList).length := by
    rw [List.length_append, List.length_replicate, String.length_toList]
  rw [htext, hlength]
  refine writes_fraction (List.cons_ne_nil '0' []) (List.forall_mem_singleton.mpr rfl)
    (List.forall_mem_append.mpr ⟨isDigit_of_mem_replicate, hdigits⟩) ?_
  rw [Nat.ofDigitChars_append, Nat.ofDigitChars_append, Nat.ofDigitChars_replicate_zero]
  exact hvalue

/-- A point among the digits. -/
theorem writes_point_within (hne : digits.toList ≠ [])
    (hdigits : ∀ d ∈ digits.toList, d.isDigit = true)
    (hvalue : Nat.ofDigitChars 10 digits.toList 0 = n) {k : Nat} (hk : 0 < k) :
    Writes (String.ofList (digits.toList.take k) ++ "." ++
        String.ofList (digits.toList.drop k)).toList
      (n * (10 : ℚ) ^ (-(digits.length - k : Nat) : Int)) := by
  have htext : (String.ofList (digits.toList.take k) ++ "." ++
      String.ofList (digits.toList.drop k)).toList =
      digits.toList.take k ++ '.' :: digits.toList.drop k := by
    simp only [String.toList_append, String.toList_ofList, List.append_assoc]
    rfl
  have hlength : digits.length - k = (digits.toList.drop k).length := by
    rw [List.length_drop, String.length_toList]
  rw [htext, hlength]
  refine writes_fraction ?_ (fun d hd => hdigits d (List.mem_of_mem_take hd))
    (fun d hd => hdigits d (List.mem_of_mem_drop hd)) ?_
  · rw [Ne, List.take_eq_nil_iff]
    exact fun h => h.elim hk.ne' hne
  · rw [List.take_append_drop, hvalue]

/-- Zeros behind the digits. -/
theorem writes_zeros_behind (hne : digits.toList ≠ [])
    (hdigits : ∀ d ∈ digits.toList, d.isDigit = true)
    (hvalue : Nat.ofDigitChars 10 digits.toList 0 = n) (k : Nat) :
    Writes (digits ++ zeros k).toList (n * (10 : ℚ) ^ (k : Int)) := by
  have hall : (n * (10 : ℚ) ^ (k : Int)) = ((10 ^ k * n : Nat) : ℚ) := by
    rw [zpow_natCast]
    push_cast
    ring
  rw [String.toList_append, toList_zeros, hall]
  refine writes_whole (by simp [hne])
    (List.forall_mem_append.mpr ⟨hdigits, isDigit_of_mem_replicate⟩) ?_
  rw [Nat.ofDigitChars_append, Nat.ofDigitChars_replicate_zero, hvalue]

/-- Digits with their point are worth what the digits and the place of the point say. -/
theorem writes_positionalText (hne : digits.toList ≠ [])
    (hdigits : ∀ d ∈ digits.toList, d.isDigit = true)
    (hvalue : Nat.ofDigitChars 10 digits.toList 0 = n) (point : Int) :
    Writes (Layout.plain.positionalText digits point).toList
      (n * (10 : ℚ) ^ (point - digits.length)) := by
  unfold Layout.positionalText
  split
  · next hpoint =>
    have hexponent : point - digits.length = -((-point).toNat + digits.length : Nat) := by omega
    rw [hexponent]
    exact writes_zeros_before hdigits hvalue _
  split
  · next hpoint hlt =>
    have hexponent : point - digits.length = -(digits.length - point.toNat : Nat) := by omega
    rw [hexponent]
    exact writes_point_within hne hdigits hvalue (by omega)
  · next hpoint hge =>
    have hexponent : point - digits.length = (point.toNat - digits.length : Nat) := by omega
    have hending : Layout.plain.wholeEnding = "" := rfl
    rw [hexponent, hending, String.append_empty]
    exact writes_zeros_behind hne hdigits hvalue _

end

theorem toList_toString (n : Nat) : (toString n).toList = Nat.toDigits 10 n := Nat.toList_repr

theorem isDigit_of_mem_toString (n : Nat) : ∀ d ∈ (toString n).toList, d.isDigit = true := by
  intro d hd
  rw [toList_toString] at hd
  exact Nat.isDigit_of_mem_toDigits (by decide) (by decide) hd

theorem toString_ne_nil (n : Nat) : (toString n).toList ≠ [] := by
  rw [toList_toString]
  exact Nat.toDigits_ne_nil

theorem ofDigitChars_toString (n : Nat) : Nat.ofDigitChars 10 (toString n).toList 0 = n := by
  rw [toList_toString]
  exact Nat.ofDigitChars_ten_toDigits

/-- A whole number is shown with one decimal. -/
theorem writes_whole_text (n : Nat) : Writes ("" ++ toString n ++ ".0").toList n := by
  have htext : ("" ++ toString n ++ ".0").toList = (toString n).toList ++ '.' :: ['0'] := by
    simp only [String.toList_append]
    rfl
  have hvalue : (n : ℚ) = (n * 10 : Nat) * (10 : ℚ) ^ (-(['0'].length : Int)) := by
    push_cast
    norm_num
    ring
  rw [htext, hvalue]
  refine writes_fraction (toString_ne_nil n) (isDigit_of_mem_toString n)
    (List.forall_mem_singleton.mpr rfl) ?_
  rw [Nat.ofDigitChars_append, ofDigitChars_toString]
  show 10 * n + 0 = n * 10
  omega

/-- A finite number that is found to be whole has that value. -/
theorem whole?_eq_some {m n : Nat} {e : Int} (h : Binary.whole? m e = some n) : magnitude m e = n := by
  unfold Binary.whole? at h
  split at h
  · next he =>
    cases h
    obtain ⟨k, rfl⟩ := Int.eq_ofNat_of_zero_le he
    have hpow : Nat.pow 2 (k : Int).toNat = 2 ^ k := rfl
    rw [magnitude, zpow_natCast, hpow]
    push_cast
    rfl
  · next he =>
    dsimp only at h
    split at h
    · next hdiv =>
      cases h
      obtain ⟨k, rfl⟩ : ∃ k : Nat, e = -(k : Int) := ⟨(-e).toNat, by omega⟩
      have hpow : Nat.pow 2 (- -(k : Int)).toNat = 2 ^ k := by rw [neg_neg]; rfl
      rw [hpow] at hdiv ⊢
      rw [magnitude, zpow_neg, zpow_natCast, ← div_eq_mul_inv,
        Nat.cast_div (Nat.dvd_of_mod_eq_zero hdiv) (by positivity)]
      push_cast
      rfl
    · cases h

theorem whole?_zero_ne_none (e : Int) : Binary.whole? 0 e ≠ none := by
  unfold Binary.whole?
  split <;> simp

/-- The text of a double without a sign is a numeral of a rational that rounds to the double. -/
theorem writes_treeText {x : Float} {m : Nat} {e : Int} (hx : Binary.ofFloat x = .finite false m e)
    (h : Canonical m e) : ∃ q, RoundsTo m e q ∧ Writes (treeText x).toList q := by
  unfold treeText
  rw [hx]
  dsimp only
  split
  · next n hwhole =>
    refine ⟨n, ?_, writes_whole_text n⟩
    rw [← whole?_eq_some hwhole]
    exact roundsTo_magnitude m e
  · next hwhole =>
    have hm : m ≠ 0 := by
      rintro rfl
      exact whole?_zero_ne_none e hwhole
    refine ⟨(shortest .up m e).toRat, shortest_roundsTo .up h (Nat.pos_of_ne_zero hm), ?_⟩
    have hwrites := writes_positionalText (toString_ne_nil _) (isDigit_of_mem_toString _)
      (ofDigitChars_toString (shortest .up m e).digits)
      ((toString (shortest .up m e).digits).length + (shortest .up m e).exponent)
    rw [add_sub_cancel_left] at hwrites
    rw [Layout.finiteText, if_neg hm]
    exact hwrites

end LoxLang.Number
