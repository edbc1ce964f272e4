import ChordScript.Decimal.Dyadic

namespace ChordScript.Midi

/-- A number of seconds in nanoseconds, halves to the even neighbour. A span is not negative, and its
whole seconds are counted in 64 bits. -/
def span? (seconds : Float) : Option Nat :=
  match Decimal.Dyadic.ofFloat seconds with
  | .finite negative m e =>
    let whole := Decimal.Ratio.scaled m 2 e
    if (negative && m != 0) || Nat.pow 2 64 ≤ whole.floor then none
    else some ((whole.times 10 9).round .even)
  | _ => none

/-- A clock shows nanoseconds. What it shows when it is read next is not known, but it has no
instant after the last one. -/
structure Clock where
  shows : Nat → Nat := fun _ => 0
  reads : Nat := 0
  last : Nat := Nat.pow 2 63 * Nat.pow 10 9 - 1

namespace Clock

def now (c : Clock) : Nat := c.shows c.reads

def next (c : Clock) : Clock := { c with reads := c.reads + 1 }

def after? (c : Clock) (instant : Nat) (seconds : Float) : Option Nat :=
  (span? seconds).bind fun span =>
    if instant + span ≤ c.last then some (instant + span) else none

end Clock

end ChordScript.Midi
