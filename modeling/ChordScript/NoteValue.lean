import ChordScript.Tempo

namespace ChordScript

inductive NoteValue
  | measures (count : Nat)
  | division (denominator : Nat) (dotted : Bool)
  | fraction (numerator denominator : Nat)
  deriving DecidableEq, Repr

namespace NoteValue

def scan (s : List Char) : Option (NoteValue × List Char) :=
  match Text.number? s with
  | some (n, 'm' :: s) => some (.measures n, s)
  | some (n, 'n' :: '.' :: s) => some (.division n true, s)
  | some (n, 'n' :: s) => some (.division n false, s)
  | some (n, '/' :: s) => (Text.number? s).map fun (d, s) => (.fraction n d, s)
  | _ => none

def IsPositive : NoteValue → Prop
  | .measures n => 0 < n
  | .division d _ => 0 < d
  | .fraction n d => 0 < n ∧ 0 < d

instance : DecidablePred IsPositive
  | .measures n => inferInstanceAs (Decidable (0 < n))
  | .division d _ => inferInstanceAs (Decidable (0 < d))
  | .fraction n d => inferInstanceAs (Decidable (0 < n ∧ 0 < d))

/-- A token is a note value only as a whole, and only if it lasts. -/
def read? (token : String) : Option NoteValue :=
  match scan token.toList with
  | some (v, []) => if v.IsPositive then some v else none
  | _ => none

variable {τ : Type} [Seconds τ]

def wholeNotes : NoteValue → τ
  | .measures n => Seconds.ofNat n
  | .division d dotted =>
    let plain := Seconds.ofNat 1 / Seconds.ofNat d
    if dotted then plain * (Seconds.ofNat 3 / Seconds.ofNat 2) else plain
  | .fraction n d => Seconds.ofNat n / Seconds.ofNat d

def seconds (v : NoteValue) (t : Tempo) : τ :=
  v.wholeNotes * Seconds.ofNat Tempo.beatsPerMeasure * t.beat

end NoteValue

end ChordScript
