/-!
A double as an exact dyadic number: `mantissa · 2 ^ exponent` with a sign, or one of the values
that are no number on the line. Every exact question about a double is asked of this form.
-/
namespace LoxLang.Number

inductive Binary
  | nan
  | infinite (negative : Bool)
  | finite (negative : Bool) (mantissa : Nat) (exponent : Int)
  deriving DecidableEq, Repr

namespace Binary

/-- The exponent of the smallest positive double, which is also that of every subnormal one. -/
def minExponent : Int := -1074

def leadingBit : Nat := Nat.pow 2 52

def ofBits (bits : Nat) : Binary :=
  let negative := bits.testBit 63
  let biased := bits / leadingBit % 2048
  let fraction := bits % leadingBit
  if biased = 2047 then
    if fraction = 0 then .infinite negative else .nan
  else if biased = 0 then
    .finite negative fraction minExponent
  else
    .finite negative (leadingBit + fraction) (minExponent + (biased - 1 : Nat))

def ofFloat (x : Float) : Binary := ofBits x.toBits.toNat

def whole? (mantissa : Nat) (exponent : Int) : Option Nat :=
  if 0 ≤ exponent then
    some (mantissa * Nat.pow 2 exponent.toNat)
  else
    let den := Nat.pow 2 (-exponent).toNat
    if mantissa % den = 0 then some (mantissa / den) else none

end Binary

end LoxLang.Number
