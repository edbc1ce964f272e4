import ChordScript.Decimal.Dyadic
import ChordScript.Text.Numeral

/-!
# The shortest decimal that reads back

Of all decimals that are rounded to a given floating-point number, the ones with the fewest digits
are taken, and of those the nearest; of two that are equally near the caller chooses. Each number of
digits fixes a grid of decimals; only the two neighbours of the number on that grid can be the
nearest ones.
-/

namespace ChordScript.Decimal

structure Scientific where
  digits : Nat
  exponent : Int
  deriving DecidableEq, Repr

namespace Scientific

def stripZeros : Nat → Scientific → Scientific
  | fuel + 1, ⟨d, k⟩ =>
    if d ≠ 0 ∧ d % 10 = 0 then stripZeros fuel ⟨d / 10, k + 1⟩ else ⟨d, k⟩
  | 0, s => s

end Scientific

/-- The numbers that are rounded to `mantissa * 2 ^ exponent` are those between two ends, which
belong to it if the mantissa is even. All are counted in units of `2 ^ (exponent - 2)`. -/
structure Interval where
  low : Nat
  value : Nat
  high : Nat
  unit : Int
  closed : Bool

namespace Interval

def around (mantissa : Nat) (exponent : Int) : Interval :=
  { low :=
      if mantissa = Dyadic.hiddenBit ∧ exponent ≠ Dyadic.leastExponent then 4 * mantissa - 1
      else 4 * mantissa - 2
    value := 4 * mantissa
    high := 4 * mantissa + 2
    unit := exponent - 2
    closed := mantissa % 2 = 0 }

def onGrid (i : Interval) (point : Nat) (grid : Int) : Ratio :=
  (Ratio.scaled point 2 i.unit).times 10 (-grid)

def contains (i : Interval) (grid : Int) (n : Nat) : Bool :=
  let low := (i.onGrid i.low grid).compareNat n
  let high := (i.onGrid i.high grid).compareNat n
  (low == .lt && high == .gt) || (i.closed && (low == .eq || high == .eq))

def nearest? (i : Interval) (halfway : Halfway) (grid : Int) : Option Scientific :=
  let value := i.onGrid i.value grid
  let n := value.floor
  match i.contains grid n, i.contains grid (n + 1) with
  | true, true => some ⟨value.round halfway, grid⟩
  | true, false => some ⟨n, grid⟩
  | false, true => some ⟨n + 1, grid⟩
  | false, false => none

end Interval

def digitCount (n : Nat) : Nat := (Text.numeral n).length

def order (r : Ratio) : Int :=
  if r.denominator ≤ r.numerator then (digitCount r.floor : Int) - 1
  else -(digitCount ((r.denominator - 1) / r.numerator) : Int)

def mostDigits : Nat := 17

def shortest (halfway : Halfway) (mantissa : Nat) (exponent : Int) : Scientific :=
  let interval := Interval.around mantissa exponent
  let value := Ratio.scaled mantissa 2 exponent
  let grids := (List.range mostDigits).map fun (n : Nat) => order value - n
  let found := grids.findSome? (interval.nearest? halfway)
  (found.getD ⟨mantissa, exponent⟩).stripZeros mostDigits

end ChordScript.Decimal
