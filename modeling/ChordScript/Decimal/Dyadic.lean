namespace ChordScript.Decimal

inductive Dyadic
  | nan
  | infinite (negative : Bool)
  /-- The number `mantissa * 2 ^ exponent`; zero has both signs. -/
  | finite (negative : Bool) (mantissa : Nat) (exponent : Int)
  deriving DecidableEq, Repr

namespace Dyadic

def leastExponent : Int := -1074

def hiddenBit : Nat := Nat.pow 2 52

def ofBits (bits : Nat) : Dyadic :=
  let negative := bits / Nat.pow 2 63 % 2 == 1
  let exponent : Nat := bits / hiddenBit % Nat.pow 2 11
  let fraction : Nat := bits % hiddenBit
  if exponent = Nat.pow 2 11 - 1 then if fraction = 0 then .infinite negative else .nan
  else if exponent = 0 then .finite negative fraction leastExponent
  else .finite negative (hiddenBit + fraction) (leastExponent + exponent - 1)

def ofFloat (x : Float) : Dyadic := ofBits x.toBits.toNat

end Dyadic

inductive Halfway
  | even
  | up
  deriving DecidableEq, Repr

structure Ratio where
  numerator : Nat
  denominator : Nat

namespace Ratio

def scaled (n base : Nat) (exponent : Int) : Ratio :=
  ⟨n * base.pow exponent.toNat, base.pow (-exponent).toNat⟩

def times (r : Ratio) (base : Nat) (exponent : Int) : Ratio :=
  ⟨r.numerator * base.pow exponent.toNat, r.denominator * base.pow (-exponent).toNat⟩

def floor (r : Ratio) : Nat := r.numerator / r.denominator

def compareNat (r : Ratio) (n : Nat) : Ordering := compare r.numerator (n * r.denominator)

def compareHalf (r : Ratio) (n : Nat) : Ordering :=
  compare (2 * r.numerator) ((2 * n + 1) * r.denominator)

def round (r : Ratio) (halfway : Halfway) : Nat :=
  match r.compareHalf r.floor, halfway with
  | .lt, _ => r.floor
  | .gt, _ => r.floor + 1
  | .eq, .up => r.floor + 1
  | .eq, .even => if r.floor % 2 = 0 then r.floor else r.floor + 1

end Ratio

end ChordScript.Decimal
