/-!
# Seconds

Times and durations are counted in seconds. What the timeline needs of them is collected in the
class `Seconds`, so that the same formulas run in binary floating point and can be read over exact
rationals. In floating point the order of the operations matters.
-/

namespace ChordScript

class Seconds (τ : Type) extends Add τ, Mul τ, Div τ where
  ofNat : Nat → τ
  lt : τ → τ → Bool
  isFinite : τ → Bool
  isNaN : τ → Bool

namespace Seconds

instance : Seconds Float where
  ofNat := Float.ofNat
  lt a b := decide (a < b)
  isFinite := Float.isFinite
  isNaN := Float.isNaN

instance : Seconds Rat where
  ofNat n := (n : Rat)
  lt a b := decide (a < b)
  isFinite _ := true
  isNaN _ := false

variable {τ : Type} [Seconds τ]

def zero : τ := ofNat 0

/-- The later of two times; of two equal ones the second, and never NaN if one is a number. -/
def later (a b : τ) : τ :=
  if isNaN b || lt b a then a else b

end Seconds

end ChordScript
