import Mathlib
import LoxLang.Proofs.Number.Written

/-!
Doubles that literals stand for. Digits give zero, a positive number or infinity, never a number with a
sign and never one that is no number: every operation on the way keeps to these. Finite ones have
different texts unless they are the same. Main statements: `finite_ofDigits`, `treeText_inj`.
-/
namespace LoxLang.Number

open Float.Model (UnpackedFloat Format)
open Float.Model.UnpackedFloat

section

variable {a b : Nat} {negative : Bool} {m : Nat} {e : Int}

/-- The bits of a finite double are those of its sign, exponent and fraction. -/
theorem ofBits_eq_finite (h : Binary.ofBits a = .finite negative m e) :
    negative = a.testBit 63 ∧
      (a / 2 ^ 52 % 2048 = 0 ∧ m = a % 2 ^ 52 ∧ e = -1074 ∨
        a / 2 ^ 52 % 2048 ≠ 0 ∧ a / 2 ^ 52 % 2048 < 2047 ∧ m = 2 ^ 52 + a % 2 ^ 52 ∧
          e = -1075 + (a / 2 ^ 52 % 2048 : Nat)) := by
  have hleading : Binary.leadingBit = 2 ^ 52 := rfl
  unfold Binary.ofBits at h
  rw [hleading] at h
  simp only at h
  split at h
  · split at h <;> cases h
  next hinfinite =>
  split at h
  · next hzero =>
    cases h
    exact ⟨rfl, .inl ⟨hzero, rfl, rfl⟩⟩
  · next hzero =>
    cases h
    refine ⟨rfl, .inr ⟨hzero, by omega, rfl, ?_⟩⟩
    rw [Binary.minExponent]
    omega

theorem canonical_of_ofBits (h : Binary.ofBits a = .finite negative m e) : Canonical m e := by
  rcases (ofBits_eq_finite h).2 with ⟨-, rfl, rfl⟩ | ⟨hzero, hinfinite, rfl, rfl⟩
  · exact ⟨by omega, by omega, by omega, .inr rfl⟩
  · exact ⟨by omega, by omega, by omega, .inl (by omega)⟩

theorem eq_of_ofBits (ha : a < 2 ^ 64) (hb : b < 2 ^ 64) (h : Binary.ofBits a = .finite negative m e)
    (h' : Binary.ofBits b = .finite negative m e) : a = b := by
  obtain ⟨hsign, hfields⟩ := ofBits_eq_finite h
  obtain ⟨hsign', hfields'⟩ := ofBits_eq_finite h'
  have hsigns : a / 2 ^ 63 % 2 = 1 ↔ b / 2 ^ 63 % 2 = 1 := by
    rw [hsign, Nat.testBit_eq_decide_div_mod_eq, Nat.testBit_eq_decide_div_mod_eq] at hsign'
    exact decide_eq_decide.mp hsign'
  omega

/-- A finite double is made of its sign, its mantissa and its exponent. -/
theorem eq_of_ofFloat {x y : Float} (hx : Binary.ofFloat x = .finite negative m e)
    (hy : Binary.ofFloat y = .finite negative m e) : x = y :=
  Float.toBits_inj.mp <| UInt64.toNat_inj.mp <|
    eq_of_ofBits x.toBits.toNat_lt y.toBits.toNat_lt hx hy

end

def IsUnsigned : UnpackedFloat → Prop
  | .infinity sign | .zero sign | .finite sign .. => sign = .positive
  | .notANumber => False

section

variable {u : UnpackedFloat}

theorem isUnsigned_roundWithAccuracy (spec : Format) (m : Nat) (e : Int) (accuracy : Accuracy) :
    IsUnsigned (roundWithAccuracy spec .positive m e accuracy) := by
  unfold roundWithAccuracy
  simp only
  split <;> rfl

def IsPositive : UnpackedFloat → Bool
  | .finite .positive _ _ _ => true
  | _ => false

theorem isUnsigned_div (spec : Format) {v : UnpackedFloat} (hu : IsUnsigned u) (hv : IsPositive v) :
    IsUnsigned (div spec u v) := by
  obtain ⟨m, e, hm, rfl⟩ : ∃ m e hm, v = .finite .positive m e hm := by
    unfold IsPositive at hv
    split at hv
    · exact ⟨_, _, _, rfl⟩
    · cases hv
  cases u with
  | notANumber => exact hu.elim
  | infinity sign => obtain rfl := hu; rfl
  | zero sign => obtain rfl := hu; rfl
  | finite sign m' e' hm' =>
    obtain rfl := hu
    exact isUnsigned_roundWithAccuracy spec _ _ _

theorem isUnsigned_ofNat (spec : Format) (n : Nat) : IsUnsigned (ofNat spec n) := by
  unfold ofNat ofInt UnpackedFloat.normalize
  split
  · next h => exact absurd (compare_lt_iff_lt.mp h) (by omega)
  · rfl
  · exact isUnsigned_roundWithAccuracy spec _ _ _

/-- A decimal without a sign is read as a number without one. -/
theorem isUnsigned_ofScientific (spec : Format) (m : Nat) (e : Int) :
    IsUnsigned (ofScientific spec m e) := by
  unfold ofScientific
  split
  · rfl
  split
  · rfl
  split
  · rfl
  split
  · exact isUnsigned_roundWithAccuracy spec _ _ _
  · exact isUnsigned_roundWithAccuracy spec _ _ _

structure UnsignedBits (b : BitVec Format.binary64.numBits) : Prop where
  sign : unpackSign b = 0#1
  number : isNaNBits b = false

theorem unsignedBits_packComponents {e : BitVec Format.binary64.exponentBits}
    {m : BitVec Format.binary64.mantissaBitsWithoutImplicit} (h : e = -1#_ → m = 0#_) :
    UnsignedBits (packComponents .binary64 .positive e m) where
  sign := unpackSign_packComponents _ _ _
  number := by
    rw [isNaNBits, unpackExponent_packComponents, unpackMantissa_packComponents]
    exact decide_eq_false fun hnan => hnan.2 (h hnan.1)

/-- Packing a number without a sign gives bits of a double without one. -/
theorem unsignedBits_pack (hu : IsUnsigned u) : UnsignedBits (pack .binary64 u) := by
  fun_cases pack .binary64 u with
  | case1 => exact hu.elim
  | case2 s =>
    obtain rfl := hu
    exact unsignedBits_packComponents fun _ => rfl
  | case3 s =>
    obtain rfl := hu
    exact unsignedBits_packComponents fun _ => rfl
  | case4 s m e hm biased hlarge =>
    obtain rfl := hu
    exact unsignedBits_packComponents fun _ => rfl
  | case5 s m e hm bits biased hlarge hnormal =>
    obtain rfl := hu
    refine unsignedBits_packComponents fun hones => absurd (congrArg BitVec.toNat hones) ?_
    have hbound : biased + 1 < 2 ^ 11 := Nat.not_le.mp hlarge
    have hlt : biased < 2 ^ 11 := by omega
    show biased % 2 ^ 11 ≠ 2047
    rw [Nat.mod_eq_of_lt hlt]
    omega
  | case6 s m e hm bits biased hlarge hnormal =>
    obtain rfl := hu
    exact unsignedBits_packComponents fun hones => absurd hones (by decide)

/-- Unpacking bits without a sign gives a number without one. -/
theorem isUnsigned_unpack {b : BitVec Format.binary64.numBits} (hb : UnsignedBits b) :
    IsUnsigned (unpack .binary64 b) := by
  have hsign : Sign.ofBitVec (unpackSign b) = .positive := by rw [hb.sign]; rfl
  have hnumber := of_decide_eq_false hb.number
  unfold unpack
  simp only
  rw [hsign]
  split
  · next hones =>
    split
    · rfl
    · next hmantissa => exact absurd ⟨hones, hmantissa⟩ hnumber
  split
  · split <;> rfl
  · rfl

/-- Such bits read as what they stand for. -/
theorem ofBits_of_unsigned {b : BitVec Format.binary64.numBits} (hb : UnsignedBits b) :
    Binary.ofBits b.toNat = .infinite false ∨ ∃ m e, Binary.ofBits b.toNat = .finite false m e := by
  have hsign : b.toNat.testBit 63 = false := by
    have hzero := congrArg BitVec.toNat hb.sign
    rw [unpackSign_def, BitVec.extractLsb'_toNat, Nat.shiftRight_eq_div_pow] at hzero
    have hzero : b.toNat / 2 ^ 63 % 2 = 0 := hzero
    rw [Nat.testBit_eq_decide_div_mod_eq, hzero]
    rfl
  have hexponent : (unpackExponent b).toNat = b.toNat / 2 ^ 52 % 2048 := by
    rw [unpackExponent_def, BitVec.extractLsb'_toNat, Nat.shiftRight_eq_div_pow]
    rfl
  have hmantissa : (unpackMantissa b).toNat = b.toNat % 2 ^ 52 := by
    rw [unpackMantissa_def, BitVec.extractLsb'_toNat, Nat.shiftRight_zero]
  have hleading : Binary.leadingBit = 2 ^ 52 := rfl
  unfold Binary.ofBits
  rw [hleading, hsign, ← hexponent, ← hmantissa]
  simp only
  split
  · next hones =>
    have hzero : (unpackMantissa b).toNat = 0 := by
      by_contra hne
      refine of_decide_eq_false hb.number ⟨BitVec.eq_of_toNat_eq hones, fun h => hne ?_⟩
      rw [h]
      rfl
    rw [if_pos hzero]
    exact .inl rfl
  split
  · exact .inr ⟨_, _, rfl⟩
  · exact .inr ⟨_, _, rfl⟩

/-- The powers of ten that a fraction of few digits is divided by. -/
theorem isPositive_powerOfTen :
    ∀ i : Fin 23, IsPositive Float.exactlyRepresentablePowersOfTen[i].toModel.unpack := by
  decide +kernel

/-- The double of a row of digits is zero, a positive number or infinity. -/
theorem unsignedBits_ofDigits (whole fraction : List Char) :
    UnsignedBits (ofDigits whole fraction).toBits.toBitVec := by
  unfold ofDigits
  show UnsignedBits (Float.ofScientific _ true _).toBits.toBitVec
  unfold Float.ofScientific
  dsimp only
  split
  · next h =>
    refine unsignedBits_pack (isUnsigned_div _ ?_ (isPositive_powerOfTen ⟨_, by omega⟩))
    exact isUnsigned_unpack (unsignedBits_pack (isUnsigned_ofNat _ _))
  · exact unsignedBits_pack (isUnsigned_ofScientific _ _ _)

end

section

variable {x y : Float} {m m' : Nat} {e e' : Int}

/-- Digits stand for infinity or for a finite number without a sign. -/
theorem finite_ofDigits {whole fraction : List Char}
    (h : ∀ negative, Binary.ofFloat (ofDigits whole fraction) ≠ .infinite negative) :
    ∃ m e, Binary.ofFloat (ofDigits whole fraction) = .finite false m e :=
  (ofBits_of_unsigned (unsignedBits_ofDigits whole fraction)).resolve_left (h false)

theorem isNumeral_treeText (hx : Binary.ofFloat x = .finite false m e) :
    IsNumeral (treeText x).toList := by
  obtain ⟨q, -, hwrites⟩ := writes_treeText hx (canonical_of_ofBits hx)
  exact hwrites.numeral

/-- Different numbers have different texts. -/
theorem treeText_inj (hx : Binary.ofFloat x = .finite false m e)
    (hy : Binary.ofFloat y = .finite false m' e') (h : treeText x = treeText y) : x = y := by
  obtain ⟨q, hround, hwrites⟩ := writes_treeText hx (canonical_of_ofBits hx)
  obtain ⟨r, hround', hwrites'⟩ := writes_treeText hy (canonical_of_ofBits hy)
  obtain rfl : q = r := by rw [← hwrites.value, ← hwrites'.value, h]
  obtain ⟨rfl, rfl⟩ := hround.unique (canonical_of_ofBits hx) (canonical_of_ofBits hy) hround'
  exact eq_of_ofFloat hx hy

end

end LoxLang.Number
