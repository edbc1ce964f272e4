import ChordScript.Pitch.Spelling

namespace ChordScript

inductive Quality
  | major
  | minor
  | diminished
  | augmented
  deriving DecidableEq, Repr

namespace Quality

def all : List Quality := [.major, .minor, .diminished, .augmented]

def name : Quality → String
  | .major => "major"
  | .minor => "minor"
  | .diminished => "diminished"
  | .augmented => "augmented"

def offsets : Quality → List Int
  | .major => [0, 4, 7]
  | .minor => [0, 3, 7]
  | .diminished => [0, 3, 6]
  | .augmented => [0, 4, 8]

/-- No name begins another one, so at most one quality stands at the start of a text. -/
def scan (s : List Char) : Option (Quality × List Char) :=
  all.findSome? fun q =>
    if q.name.toList.isPrefixOf s then some (q, s.drop q.name.toList.length) else none

def read? (name : String) : Option Quality := all.find? (·.name = name)

@[simp] theorem read?_name (q : Quality) : read? q.name = some q := by
  cases q <;> decide

end Quality

structure Chord where
  root : Pitch
  quality : Quality
  deriving DecidableEq, Repr

namespace Chord

def pitches (c : Chord) : List Pitch := c.quality.offsets.map c.root.transpose

def text (c : Chord) : String := c.root.text ++ " " ++ c.quality.name

def bassClass? (c : Chord) : Option PitchClass :=
  match c.root.pitchClass, c.quality with
  | .a, .minor => some .a
  | .e, .minor => some .e
  | .f, .major => some .f
  | .c, .major => some .c
  | _, _ => none

def bass? (c : Chord) : Option Pitch := c.bassClass?.map (⟨·, 2⟩)

end Chord

end ChordScript
