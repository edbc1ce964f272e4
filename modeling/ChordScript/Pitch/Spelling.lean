import ChordScript.Pitch
import ChordScript.Text.Numeral

namespace ChordScript

inductive Letter
  | a
  | b
  | c
  | d
  | e
  | f
  | g
  deriving DecidableEq, Repr

namespace Letter

def toChar : Letter → Char
  | .a => 'A'
  | .b => 'B'
  | .c => 'C'
  | .d => 'D'
  | .e => 'E'
  | .f => 'F'
  | .g => 'G'

def ofChar? : Char → Option Letter
  | 'A' => some .a
  | 'B' => some .b
  | 'C' => some .c
  | 'D' => some .d
  | 'E' => some .e
  | 'F' => some .f
  | 'G' => some .g
  | _ => none

def semitone : Letter → Nat
  | .c => 0
  | .d => 2
  | .e => 4
  | .f => 5
  | .g => 7
  | .a => 9
  | .b => 11

@[simp] theorem ofChar?_toChar (l : Letter) : ofChar? l.toChar = some l := by
  cases l <;> rfl

def scan : List Char → Option (Letter × List Char)
  | [] => none
  | initial :: s => (ofChar? initial).map (·, s)

end Letter

inductive Accidental
  | flat
  | natural
  | sharp
  deriving DecidableEq, Repr

namespace Accidental

def offset : Accidental → Int
  | .flat => -1
  | .natural => 0
  | .sharp => 1

def spelling : Accidental → List Char
  | .flat => ['b']
  | .natural => []
  | .sharp => ['#']

def scan : List Char → Accidental × List Char
  | '#' :: s => (.sharp, s)
  | 'b' :: s => (.flat, s)
  | s => (.natural, s)

end Accidental

namespace PitchClass

def spelling : PitchClass → List Char
  | .c => ['C']
  | .cSharp => ['C', '#']
  | .d => ['D']
  | .dSharp => ['D', '#']
  | .e => ['E']
  | .f => ['F']
  | .fSharp => ['F', '#']
  | .g => ['G']
  | .gSharp => ['G', '#']
  | .a => ['A']
  | .aSharp => ['A', '#']
  | .b => ['B']

end PitchClass

namespace Pitch

def ofSpelling (letter : Letter) (accidental : Accidental) (octave : Int) : Pitch :=
  transpose ⟨.ofIndex letter.semitone, octave⟩ accidental.offset

def digitValue (c : Char) : Nat := c.toNat - '0'.toNat

def scanOctave : List Char → Option (Int × List Char)
  | '-' :: c :: s => if c.isDigit then some (-(digitValue c : Int), s) else none
  | c :: s => if c.isDigit then some ((digitValue c : Int), s) else none
  | [] => none

def scan (s : List Char) : Option (Pitch × List Char) := do
  let (letter, s) ← Letter.scan s
  let (accidental, s) := Accidental.scan s
  let (octave, s) ← scanOctave s
  return (ofSpelling letter accidental octave, s)

def read? (token : String) : Option Pitch :=
  match scan token.toList with
  | some (p, []) => some p
  | _ => none

def spelling (p : Pitch) : List Char := p.pitchClass.spelling ++ Text.signedNumeral p.octave

def text (p : Pitch) : String := .ofList p.spelling

end Pitch

end ChordScript
