import LoxLang.Number.Binary

/-!
The shortest decimal that reads back as a given double. A decimal reads back exactly when it lies
in the interval of reals that round to the double, ends included iff the mantissa is even. Grids
`10 ^ k` are tried from the coarsest; on the first one with a point inside, the nearest point wins.
-/
namespace LoxLang.Number

structure Decimal where
  digits : Nat
  exponent : Int
  deriving DecidableEq, Repr

inductive Tie
  | up
  | toEven
  deriving DecidableEq, Repr

namespace Decimal

def trim : Nat → Decimal → Decimal
  | 0, d => d
  | n + 1, d =>
    if d.digits ≠ 0 ∧ d.digits % 10 = 0 then trim n ⟨d.digits / 10, d.exponent + 1⟩ else d

end Decimal

structure Ratio where
  num : Nat
  den : Nat

namespace Ratio

def scale (r : Ratio) (b : Nat) (e : Int) : Ratio :=
  if 0 ≤ e then ⟨r.num * Nat.pow b e.toNat, r.den⟩
  else ⟨r.num, r.den * Nat.pow b (-e).toNat⟩

def reachesPowerOfTen (r : Ratio) (e : Int) : Bool :=
  let s := r.scale 10 (-e)
  s.den ≤ s.num

end Ratio

namespace Shortest

/-- The `e` with `10 ^ e ≤ m · 2 ^ q < 10 ^ (e + 1)`, for `0 < m`: the estimate from the binary
length is off by one at most. -/
def decimalExponent (mantissa : Nat) (exponent : Int) : Int :=
  let value := Ratio.scale ⟨mantissa, 1⟩ 2 exponent
  let estimate := ((mantissa.log2 + exponent) * 30103).fdiv 100000
  if value.reachesPowerOfTen (estimate + 1) then estimate + 1
  else if value.reachesPowerOfTen estimate then estimate
  else estimate - 1

/-- The interval of reals that round to `mantissa · 2 ^ exponent`, in quarters of
`2 ^ exponent`. Below a power of two the neighbour is only half as far away. -/
structure Interval where
  low : Nat
  value : Nat
  high : Nat
  closed : Bool

def interval (mantissa : Nat) (exponent : Int) : Interval where
  low :=
    if mantissa = Binary.leadingBit ∧ Binary.minExponent < exponent then 4 * mantissa - 1
    else 4 * mantissa - 2
  value := 4 * mantissa
  high := 4 * mantissa + 2
  closed := mantissa % 2 = 0

def Interval.contains (i : Interval) (unit : Ratio) (p : Nat) : Bool :=
  let low := i.low * unit.num
  let high := i.high * unit.num
  let point := p * unit.den
  if i.closed then low ≤ point && point ≤ high else low < point && point < high

def prefersNext (tie : Tie) (i : Interval) (unit : Ratio) (p : Nat) : Bool :=
  -- the value lies beyond the middle of `p` and `p + 1` iff its double exceeds their sum
  let twice := 2 * (i.value * unit.num)
  let middle := (2 * p + 1) * unit.den
  middle < twice || (middle == twice && (tie == .up || p % 2 == 1))

def onGrid? (tie : Tie) (i : Interval) (exponent k : Int) : Option Nat :=
  let unit := ((Ratio.mk 1 4).scale 2 exponent).scale 10 (-k)
  let p := i.value * unit.num / unit.den
  match i.contains unit p, i.contains unit (p + 1) with
  | true, true => some (if prefersNext tie i unit p then p + 1 else p)
  | true, false => some p
  | false, true => some (p + 1)
  | false, false => none

def search (tie : Tie) (i : Interval) (exponent : Int) : Nat → Int → Decimal
  | 0, _ => ⟨0, 0⟩
  | n + 1, k =>
    match onGrid? tie i exponent k with
    | some p => ⟨p, k⟩
    | none => search tie i exponent n (k - 1)

end Shortest

/-- Seventeen digits tell any two doubles apart, so the search ends by then. -/
def shortest (tie : Tie) (mantissa : Nat) (exponent : Int) : Decimal :=
  let first := Shortest.decimalExponent mantissa exponent
  (Shortest.search tie (Shortest.interval mantissa exponent) exponent 17 first).trim 17

end LoxLang.Number
