import ChordScript.Tempo

namespace ChordScript

structure Cursor (τ : Type) where
  offset : τ
  measure : Nat
  deriving DecidableEq

namespace Cursor

variable {τ : Type} [Seconds τ]

def start : Cursor τ := ⟨Seconds.zero, 0⟩

def advance (c : Cursor τ) (seconds : τ) : Cursor τ :=
  if Seconds.isFinite seconds && Seconds.lt Seconds.zero seconds then
    { c with offset := c.offset + seconds }
  else c

def advanceMeasure (c : Cursor τ) (tempo : Tempo) : Cursor τ :=
  { c.advance tempo.measure with measure := c.measure + 1 }

@[simp] theorem measure_advance (c : Cursor τ) (s : τ) : (c.advance s).measure = c.measure := by
  unfold advance
  split <;> rfl

end Cursor

end ChordScript
