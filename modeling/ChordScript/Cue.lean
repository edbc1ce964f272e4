import ChordScript.Pitch.Spelling
import ChordScript.Schedule
import ChordScript.StableSort

/-!
# Cues

What a player does and when. Every pitch of an event is a cue that starts a note and one that ends
it. At equal times notes end before others start, so that a repeated note is struck again and not
cut short.
-/

namespace ChordScript

abbrev Note := Fin 128

def Pitch.note? (p : Pitch) : Option Note :=
  if h : 0 ≤ p.midi ∧ p.midi < 128 then some ⟨p.midi.toNat, by omega⟩ else none

structure OutOfRange where
  pitch : Pitch
  deriving DecidableEq, Repr

def OutOfRange.message (e : OutOfRange) : String := e.pitch.text ++ " is outside the MIDI note range"

inductive Action
  | noteOff
  | noteOn
  deriving DecidableEq, Repr

structure Cue (τ : Type) where
  time : τ
  action : Action
  voice : Voice
  note : Note
  deriving DecidableEq

namespace Cue

variable {τ : Type} [Seconds τ]

def before (a b : Cue τ) : Bool :=
  if Seconds.lt a.time b.time then true
  else if Seconds.lt b.time a.time then false
  else a.action == .noteOff && b.action == .noteOn

def ofPitch (e : Event τ) (p : Pitch) : Except OutOfRange (List (Cue τ)) :=
  match p.note? with
  | some note => .ok [⟨e.start, .noteOn, e.voice, note⟩, ⟨e.finish, .noteOff, e.voice, note⟩]
  | none => .error ⟨p⟩

end Cue

namespace Schedule

variable {τ : Type} [Seconds τ]

def unsortedCues (s : Schedule τ) : Except OutOfRange (List (Cue τ)) := do
  let cues ← (s.events.flatMap fun e => e.pitches.map fun p => (e, p)).mapM fun (e, p) =>
    Cue.ofPitch e p
  return cues.flatten

def cues (s : Schedule τ) : Except OutOfRange (List (Cue τ)) :=
  s.unsortedCues.map (StableSort.sort Cue.before)

end Schedule

end ChordScript
