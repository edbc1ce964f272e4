import ChordScript.Midi.Clock
import ChordScript.Midi.Message

/-!
# Performing on a MIDI line

A player sends one message for every cue and remembers the notes that are sounding. When a message
cannot be sent the performance ends and the sounding notes are released, and so they are when the
player is put away, also after a crash.
-/

namespace ChordScript.Midi

/-- An open line. Messages are numbered; those whose number is in `fails` do not get through. -/
structure Line where
  fails : Nat → Bool
  count : Nat := 0
  sent : List Message := []

namespace Line

def send (l : Line) (m : Message) : Bool × Line :=
  if l.fails l.count then (false, { l with count := l.count + 1 })
  else (true, { l with count := l.count + 1, sent := l.sent ++ [m] })

end Line

/-- The notes that sound, in no musical order: the last one fills the place of one that ends. -/
abbrev Sounding := List (Voice × Note)

namespace Sounding

def start (s : Sounding) (voice : Voice) (note : Note) : Sounding := s ++ [(voice, note)]

def stop (s : Sounding) (voice : Voice) (note : Note) : Sounding :=
  match s.idxOf? (voice, note), s.getLast? with
  | some i, some last => (s.set i last).dropLast
  | _, _ => s

def apply (s : Sounding) (c : Cue Float) : Sounding :=
  match c.action with
  | .noteOn => s.start c.voice c.note
  | .noteOff => s.stop c.voice c.note

end Sounding

structure Player where
  voicing : Voicing
  line : Line
  clock : Clock := {}
  delay : Float := 0
  sounding : Sounding := []

inductive PlayError
  | outOfRange (error : OutOfRange)
  | sendFailed
  deriving DecidableEq, Repr

def PlayError.message : PlayError → String
  | .outOfRange e => e.message
  | .sendFailed => "send failed"

/-- How a performance ends. It crashes at a time for which the clock has no instant; what sounds then
is left to be released when the player is put away. -/
inductive Ending
  | completed
  | failed (error : PlayError)
  | crashed
  deriving DecidableEq, Repr

namespace Player

/-- A delay that can be waited for: one that is not finite is left out, and so is a negative one. -/
def usableDelay (seconds : Float) : Float :=
  if seconds.isFinite then Seconds.later seconds 0 else 0

def ofLine (voicing : Voicing) (line : Line) (delay : Float) (clock : Clock := {}) : Player :=
  { voicing, line, clock, delay := usableDelay delay }

def send (p : Player) (action : Action) (voice : Voice) (note : Note) : Bool × Player :=
  let (ok, line) := p.line.send (p.voicing.message action voice note)
  (ok, { p with line })

/-- Ends the given notes from the first on; a note is forgotten before its message is sent, and the
first failure leaves the remaining notes. -/
def releaseFrom (p : Player) : List (Voice × Note) → Bool × Player
  | [] => (true, { p with sounding := [] })
  | (voice, note) :: rest =>
    match p.send .noteOff voice note with
    | (true, p) => p.releaseFrom rest
    | (false, p) => (false, { p with sounding := rest.reverse })

def releaseAll (p : Player) : Bool × Player := p.releaseFrom p.sounding.reverse

structure Performance where
  begun : Nat
  ending : Ending
  player : Player

def performFrom (p : Player) (start : Nat) : List (Cue Float) → Performance
  | [] => ⟨0, .completed, p⟩
  | c :: cues =>
    match p.clock.after? start c.time with
    | none => ⟨0, .crashed, p⟩
    | some _ =>
      match p.send c.action c.voice c.note with
      | (true, p) =>
        let rest := { p with sounding := p.sounding.apply c }.performFrom start cues
        { rest with begun := rest.begun + 1 }
      | (false, p) => ⟨1, .failed .sendFailed, p⟩

def start? (p : Player) : Option Nat := p.clock.after? p.clock.now p.delay

def tick (p : Player) : Player := { p with clock := p.clock.next }

def perform (p : Player) (cues : List (Cue Float)) : Performance :=
  match p.start? with
  | none => ⟨0, .crashed, p.tick⟩
  | some start => p.tick.performFrom start cues

structure Played where
  ending : Ending
  begun : List (Cue Float)
  stuck : Bool
  player : Player

def Played.error (x : Played) : Option PlayError :=
  match x.ending with
  | .failed e => some e
  | .completed | .crashed => none

def play (p : Player) (s : Schedule Float) : Played :=
  match s.cues with
  | .error e =>
    let (ok, p) := p.releaseAll
    ⟨.failed (.outOfRange e), [], !ok, p⟩
  | .ok cues =>
    let performance := p.perform cues
    let begun := cues.take performance.begun
    match performance.ending with
    | .failed e =>
      let (ok, p) := performance.player.releaseAll
      ⟨.failed e, begun, !ok, p⟩
    | ending => ⟨ending, begun, false, performance.player⟩

def close (p : Player) : Bool × Player := p.releaseAll

end Player

end ChordScript.Midi
