import ChordScript.Decimal.Shortest

namespace ChordScript.Decimal

def zeros (n : Nat) : List Char := .replicate n '0'

def withPoint (digits : List Char) (places : Nat) : List Char :=
  let padded := zeros (places + 1 - digits.length) ++ digits
  padded.take (padded.length - places) ++ '.' :: padded.drop (padded.length - places)

def signed (negative : Bool) (s : List Char) : List Char := if negative then '-' :: s else s

def Scientific.plain (s : Scientific) : List Char :=
  let digits := Text.numeral s.digits
  if 0 ≤ s.exponent then digits ++ zeros s.exponent.toNat
  else withPoint digits (-s.exponent).toNat

def Scientific.withExponent (s : Scientific) : List Char :=
  let digits := Text.numeral s.digits
  let mantissa := if digits.length = 1 then digits else withPoint digits (digits.length - 1)
  mantissa ++ 'e' :: Text.signedNumeral (s.exponent + digits.length - 1)

def plain : Dyadic → List Char
  | .nan => "NaN".toList
  | .infinite negative => signed negative "inf".toList
  | .finite negative 0 _ => signed negative ['0']
  | .finite negative m e => signed negative (shortest .up m e).plain

/-- The exact value rounded to a number of places; halves go to the even neighbour, and a number
that is rounded to zero keeps its sign. -/
def toPlaces (places : Nat) : Dyadic → List Char
  | .nan => "NaN".toList
  | .infinite negative => signed negative "inf".toList
  | .finite negative m e =>
    let rounded := ((Ratio.scaled m 2 e).times 10 places).round .even
    signed negative (withPoint (Text.numeral rounded) places)

def alignRight (width : Nat) (s : List Char) : List Char :=
  .replicate (width - s.length) ' ' ++ s

end ChordScript.Decimal
