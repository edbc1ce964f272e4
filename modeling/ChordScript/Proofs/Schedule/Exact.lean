import ChordScript.Schedule
import Mathlib.Algebra.Order.Field.Rat
import Mathlib.Tactic.FieldSimp
import Mathlib.Tactic.Positivity
import Mathlib.Tactic.Ring

namespace ChordScript

@[simp] theorem Seconds.ofNat_rat (n : Nat) : (Seconds.ofNat n : Rat) = n := rfl

@[simp] theorem Seconds.lt_rat (a b : Rat) : Seconds.lt a b = decide (a < b) := rfl

@[simp] theorem Seconds.isFinite_rat (a : Rat) : Seconds.isFinite a = true := rfl

@[simp] theorem Seconds.zero_rat : (Seconds.zero : Rat) = 0 := rfl

theorem Tempo.bpm_pos_rat (t : Tempo) : (0 : Rat) < t.bpm := by
  exact_mod_cast t.bpm_pos

theorem Tempo.measure_rat (t : Tempo) : (t.measure : Rat) = 240 / t.bpm := by
  have bpm := t.bpm_pos_rat
  change (60 : Rat) / t.bpm * (4 : Nat) = 240 / t.bpm
  field_simp
  norm_num

theorem Tempo.measure_pos (t : Tempo) : (0 : Rat) < t.measure := by
  have bpm := t.bpm_pos_rat
  rw [t.measure_rat]
  positivity

namespace NoteValue

theorem wholeNotes_measures (n : Nat) : ((measures n).wholeNotes : Rat) = n := rfl

theorem wholeNotes_division (d : Nat) (dotted : Bool) :
    ((division d dotted).wholeNotes : Rat) = (if dotted then 3 / 2 else 1) * (1 / d) := by
  cases dotted with
  | false =>
    change ((1 : Nat) : Rat) / d = 1 * (1 / d)
    simp
  | true =>
    change ((1 : Nat) : Rat) / d * ((3 : Nat) / (2 : Nat)) = 3 / 2 * (1 / d)
    push_cast
    ring

theorem wholeNotes_fraction (n d : Nat) : ((fraction n d).wholeNotes : Rat) = n / d := rfl

theorem wholeNotes_pos {v : NoteValue} (h : v.IsPositive) : (0 : Rat) < v.wholeNotes := by
  cases v with
  | measures n =>
    have count : (0 : Rat) < n := by exact_mod_cast h
    rwa [wholeNotes_measures]
  | division d dotted =>
    have denominator : (0 : Rat) < d := by exact_mod_cast h
    rw [wholeNotes_division]
    refine mul_pos ?_ (by positivity)
    cases dotted <;> norm_num
  | fraction n d =>
    have numerator : (0 : Rat) < n := by exact_mod_cast h.1
    have denominator : (0 : Rat) < d := by exact_mod_cast h.2
    rw [wholeNotes_fraction]
    positivity

theorem seconds_rat (v : NoteValue) (t : Tempo) :
    (v.seconds t : Rat) = v.wholeNotes * 240 / t.bpm := by
  change (v.wholeNotes : Rat) * (4 : Nat) * (60 / t.bpm) = v.wholeNotes * 240 / t.bpm
  push_cast
  ring

theorem seconds_pos {v : NoteValue} (h : v.IsPositive) (t : Tempo) : (0 : Rat) < v.seconds t := by
  have whole := wholeNotes_pos h
  have bpm := t.bpm_pos_rat
  rw [seconds_rat]
  positivity

theorem isPositive_of_read? {token : String} {v : NoteValue} (h : read? token = some v) :
    v.IsPositive := by
  rw [read?] at h
  split at h
  · split at h
    · cases h
      assumption
    · cases h
  · cases h

theorem seconds_whole (t : Tempo) : ((division 1 false).seconds t : Rat) = t.measure := by
  rw [seconds_rat, wholeNotes_division, t.measure_rat]
  norm_num

end NoteValue

theorem Cursor.offset_advance {c : Cursor Rat} {length : Rat} (h : 0 < length) :
    (c.advance length).offset = c.offset + length := by
  simp [advance, h]

theorem Cursor.offset_advanceMeasure (c : Cursor Rat) (t : Tempo) :
    (c.advanceMeasure t).offset = c.offset + t.measure :=
  offset_advance t.measure_pos

end ChordScript
