import ChordScript.Midi.Player
import ChordScript.Schedule.Journal

namespace ChordScript.Midi

open Journal

def Note.describe (n : Note) : String :=
  let pitch : Pitch := ⟨.ofIndex n, n / 12 - 1⟩
  let octave := String.ofList (Text.signedNumeral pitch.octave)
  let name :=
    match pitch.pitchClass with
    | .cSharp => "C#/Db"
    | .dSharp => "D#/Eb"
    | .fSharp => "F#/Gb"
    | .gSharp => "G#/Ab"
    | .aSharp => "A#/Bb"
    | natural => .ofList natural.spelling
  name ++ octave ++ "(" ++ numeralText n ++ ")"

def Action.title : Action → String
  | .noteOn => "Note on"
  | .noteOff => "Note off"

def Cue.entry (c : Cue Float) : Entry :=
  ⟨.trace, .player,
    Action.title c.action ++ " " ++ c.voice.title ++ " " ++ Note.describe c.note ++ " at " ++
      secondsText c.time⟩

def stuckEntry : Entry :=
  ⟨.warn, .player, "Could not release sounding notes: " ++ PlayError.sendFailed.message⟩

def Player.playJournal (p : Player) (s : Schedule Float) : List Entry :=
  let played := p.play s
  ⟨.info, .player,
    "Playing " ++ numeralText s.events.length ++ " events, " ++ secondsText s.soundingEnd⟩ ::
    played.begun.map Cue.entry ++ (if played.stuck then [stuckEntry] else [])

def Player.closeJournal (p : Player) : List Entry := if p.close.1 then [] else [stuckEntry]

end ChordScript.Midi
