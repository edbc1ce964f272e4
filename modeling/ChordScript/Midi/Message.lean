import ChordScript.Cue

namespace ChordScript.Midi

abbrev Channel := Fin 16

abbrev Velocity := Fin 128

structure Message where
  action : Action
  channel : Channel
  note : Note
  velocity : Velocity
  deriving DecidableEq, Repr

namespace Message

def status : Action → Nat
  | .noteOn => 0x90
  | .noteOff => 0x80

def bytes (m : Message) : List UInt8 :=
  [.ofNat (status m.action + m.channel), .ofNat m.note, .ofNat m.velocity]

end Message

structure Voicing where
  lead : Channel := 0
  bass : Channel := 1
  velocity : Velocity := 100
  deriving DecidableEq, Repr

namespace Voicing

def channel (v : Voicing) : Voice → Channel
  | .lead => v.lead
  | .bass => v.bass

def message (v : Voicing) (action : Action) (voice : Voice) (note : Note) : Message :=
  ⟨action, v.channel voice, note, v.velocity⟩

end Voicing

end ChordScript.Midi
