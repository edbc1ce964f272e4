import ChordScript.Decimal.Layout
import ChordScript.Midi.Message
import ChordScript.Schedule

namespace ChordScript

structure Settings.Output where
  port : Option String := none
  voicing : Midi.Voicing := {}

structure Settings.Playback where
  startDelay : Float := 0.1

structure Settings.Scheduling where
  discipline : Option Discipline := none

structure Settings where
  midi : Settings.Output := {}
  playback : Settings.Playback := {}
  scheduling : Settings.Scheduling := {}

inductive SettingsError
  | unreadable
  | channel (n : Nat)
  | velocity (n : Nat)
  | startDelay (seconds : Float)

def SettingsError.message? : SettingsError → Option String
  | .unreadable => none
  | .channel n =>
    some ("MIDI channel must be between 1 and 16, got " ++ .ofList (Text.numeral n))
  | .velocity n =>
    some ("MIDI velocity must be between 0 and 127, got " ++ .ofList (Text.numeral n))
  | .startDelay x =>
    some ("start delay must be a finite number of seconds, got " ++
      .ofList (Decimal.plain (.ofFloat x)))

namespace Settings

def standard : Settings := {}

def channel (n : Nat) : Except SettingsError Midi.Channel :=
  if h : 1 ≤ n ∧ n ≤ 16 then .ok ⟨n - 1, by omega⟩ else .error (.channel n)

def velocity (n : Nat) : Except SettingsError Midi.Velocity :=
  if h : n ≤ 127 then .ok ⟨n, by omega⟩ else .error (.velocity n)

def delay (x : Float) : Except SettingsError Float :=
  if !x.isFinite || x < 0 then .error (.startDelay x) else .ok x

def context (s : Settings) : Context := { discipline := s.scheduling.discipline }

end Settings

end ChordScript
