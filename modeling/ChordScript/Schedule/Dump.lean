import ChordScript.Decimal.Layout
import ChordScript.Pitch.Spelling
import ChordScript.Schedule

namespace ChordScript

def Discipline.name : Discipline → String
  | .measureAligned => "measure-aligned"
  | .sequential => "sequential"

def EventKind.name : EventKind → String
  | .chordOn => "chord_on"
  | .noteOn => "note_on"
  | .rest => "rest"

def Voice.name : Voice → String
  | .lead => "lead"
  | .bass => "bass"

namespace Dump

/-- Numbers from `1e-5` up to, but not including, `1e16` are written out, with at least one place
after the point; all others have an exponent. -/
def finiteSeconds (s : Decimal.Scientific) : List Char :=
  let point := s.exponent + Decimal.digitCount s.digits
  if 0 ≤ s.exponent ∧ point ≤ 16 then s.plain ++ ['.', '0']
  else if s.exponent < 0 ∧ -5 < point ∧ point ≤ 16 then s.plain
  else s.withExponent

def seconds (x : Float) : List Char :=
  match Decimal.Dyadic.ofFloat x with
  | .nan => ".nan".toList
  | .infinite negative => Decimal.signed negative ".inf".toList
  | .finite negative 0 _ => Decimal.signed negative "0.0".toList
  | .finite negative m e => Decimal.signed negative (finiteSeconds (Decimal.shortest .even m e))

/-- A sharp sign would begin a comment, so a pitch that has one is quoted. -/
def pitch (p : Pitch) : List Char :=
  if '#' ∈ p.spelling then '"' :: p.spelling ++ ['"'] else p.spelling

def pitchLines : List Pitch → List (List Char)
  | [] => ["    pitches: []".toList]
  | pitches => "    pitches:".toList :: pitches.map fun p => "      - ".toList ++ pitch p

section

variable {τ : Type} (write : τ → List Char)

def eventLines (e : Event τ) : List (List Char) :=
  ["  - kind: ".toList ++ e.kind.name.toList, "    voice: ".toList ++ e.voice.name.toList] ++
    pitchLines e.pitches ++
    ["    start_offset: ".toList ++ write e.start, "    duration: ".toList ++ write e.duration]

def eventsLines : List (Event τ) → List (List Char)
  | [] => ["events: []".toList]
  | events => "events:".toList :: events.flatMap (eventLines write)

def lines (s : Schedule τ) : List (List Char) :=
  ["---".toList, "discipline: ".toList ++ s.discipline.name.toList] ++
    eventsLines write s.events ++ ["final_cursor: ".toList ++ write s.finalCursor]

end

end Dump

def Schedule.dumpWith {τ : Type} (write : τ → List Char) (s : Schedule τ) : String :=
  .ofList ((Dump.lines write s).flatMap (· ++ ['\n']))

def Schedule.dump (s : Schedule Float) : String := s.dumpWith Dump.seconds

end ChordScript
