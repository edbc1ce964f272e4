import ChordScript.Text.Numeral
import ChordScript.Seconds

namespace ChordScript

structure Tempo where
  bpm : Nat
  bpm_pos : 0 < bpm := by decide
  bpm_lt : bpm < Text.numberBound := by decide
  deriving DecidableEq, Repr

namespace Tempo

def standard : Tempo := { bpm := 120 }

instance : Inhabited Tempo := ⟨standard⟩

def ofNat? (n : Nat) : Option Tempo :=
  if h : 0 < n ∧ n < Text.numberBound then some ⟨n, h.1, h.2⟩ else none

@[simp] theorem ofNat?_bpm (t : Tempo) : ofNat? t.bpm = some t := by
  simp [ofNat?, t.bpm_pos, t.bpm_lt]

def beatsPerMeasure : Nat := 4

def text (t : Tempo) : String := .ofList (Text.numeral t.bpm) ++ " bpm"

variable {τ : Type} [Seconds τ]

def beat (t : Tempo) : τ := Seconds.ofNat 60 / Seconds.ofNat t.bpm

def measure (t : Tempo) : τ := t.beat * Seconds.ofNat beatsPerMeasure

end Tempo

end ChordScript
