import ChordScript.Pitch
import ChordScript.Seconds

namespace ChordScript

inductive Voice
  | lead
  | bass
  deriving DecidableEq, Repr

inductive EventKind
  | chordOn
  | noteOn
  | rest
  deriving DecidableEq, Repr

structure Event (τ : Type) where
  kind : EventKind
  voice : Voice
  pitches : List Pitch
  start : τ
  duration : τ
  deriving DecidableEq

namespace Event

variable {τ : Type}

def chord (pitches : List Pitch) (start duration : τ) : Event τ :=
  ⟨.chordOn, .lead, pitches, start, duration⟩

def note (voice : Voice) (pitch : Pitch) (start duration : τ) : Event τ :=
  ⟨.noteOn, voice, [pitch], start, duration⟩

def rest (start duration : τ) : Event τ := ⟨.rest, .lead, [], start, duration⟩

def finish [Seconds τ] (e : Event τ) : τ := e.start + e.duration

def isAudible (e : Event τ) : Bool := !e.pitches.isEmpty

end Event

end ChordScript
