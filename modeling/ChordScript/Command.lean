import ChordScript.Tempo

namespace ChordScript

inductive Command
  | setTempo (tempo : Tempo)
  | chord (root quality duration : String)
  | note (pitch duration : String)
  | rest (duration : String)
  deriving DecidableEq, Repr

namespace Command

def duration? : Command → Option String
  | .setTempo _ => none
  | .chord _ _ duration => some duration
  | .note _ duration => some duration
  | .rest duration => some duration

def isChord : Command → Bool
  | .chord .. => true
  | _ => false

def isNote : Command → Bool
  | .note .. => true
  | _ => false

def text : Command → String
  | .setTempo tempo => "setTempo " ++ .ofList (Text.numeral tempo.bpm)
  | .chord root quality duration => "chord " ++ root ++ " " ++ quality ++ " " ++ duration
  | .note pitch duration => "play " ++ pitch ++ " " ++ duration
  | .rest duration => "rest " ++ duration

end Command

end ChordScript
