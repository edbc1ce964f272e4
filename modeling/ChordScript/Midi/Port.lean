import ChordScript.Journal

namespace ChordScript.Midi

structure Ports where
  names : List (Option String) := []
  initFails : Bool := false
  connectFails : Bool := false
  deriving DecidableEq, Repr

inductive Endpoint
  | port (index : Nat)
  | virtualPort
  deriving DecidableEq, Repr

inductive OpenError
  | noSupport
  | unreadableName
  | noSuchPort (name : String) (available : List String)
  | refused (name : String)
  | virtualRefused
  deriving DecidableEq, Repr

def clientName : String := "Chord runner"

def OpenError.message : OpenError → String
  | .noSupport => "MIDI support could not be initialized"
  | .unreadableName => "unknown error when trying to retrieve the port name"
  | .noSuchPort name available =>
    "Could not find a MIDI port with name '" ++ name ++ "'. Available ports are:\n" ++
      "\n".intercalate available
  | .refused name => "Could not connect to MIDI port '" ++ name ++ "': invalid port"
  | .virtualRefused => "Could not create virtual MIDI port: invalid port"

namespace Ports

/-- All names must be readable; of ports with the same name the first is taken. -/
def find (p : Ports) (name : String) : Except OpenError Nat :=
  if p.initFails then .error .noSupport
  else
    match p.names.mapM id with
    | none => .error .unreadableName
    | some names =>
      match names.idxOf? name with
      | some i => .ok i
      | none => .error (.noSuchPort name names)

def openNamed (p : Ports) (name : String) : Except OpenError Endpoint :=
  (p.find name).bind fun i => if p.connectFails then .error (.refused name) else .ok (.port i)

def openVirtual (p : Ports) : Except OpenError Endpoint :=
  if p.initFails then .error .noSupport
  else if p.connectFails then .error .virtualRefused
  else .ok .virtualPort

def «open» (p : Ports) : Option String → Except OpenError Endpoint
  | some name => p.openNamed name
  | none => p.openVirtual

def journal (p : Ports) : Option String → List Journal.Entry
  | some name =>
    match p.find name with
    | .ok _ => [⟨.info, .ports, "MIDI output: " ++ name⟩]
    | .error _ => []
  | none => [⟨.info, .ports, "MIDI output: virtual port '" ++ clientName ++ "'"⟩]

end Ports

end ChordScript.Midi
