import ChordScript.Chord
import ChordScript.Proofs.Pitch.Numbers

namespace ChordScript

namespace Pitch

@[simp] theorem transpose_zero (p : Pitch) : p.transpose 0 = p := by
  apply midi_injective
  rw [midi_transpose, Int.add_zero]

theorem transpose_transpose (p : Pitch) (a b : Int) :
    (p.transpose a).transpose b = p.transpose (a + b) := by
  apply midi_injective
  rw [midi_transpose, midi_transpose, midi_transpose, Int.add_assoc]

theorem transpose_eq_iff {p q : Pitch} {k : Int} : p.transpose k = q ↔ k = q.midi - p.midi := by
  rw [← midi_injective.eq_iff, midi_transpose]
  omega

end Pitch

namespace Quality

theorem exists_offsets (q : Quality) : ∃ above, q.offsets = 0 :: above := by
  cases q <;> exact ⟨_, rfl⟩

theorem pairwise_offsets (q : Quality) : q.offsets.Pairwise (· < ·) := by
  cases q <;> decide

end Quality

namespace Chord

theorem exists_pitches (c : Chord) : ∃ above, c.pitches = c.root :: above := by
  obtain ⟨above, offsets⟩ := c.quality.exists_offsets
  refine ⟨above.map c.root.transpose, ?_⟩
  rw [pitches, offsets, List.map_cons, Pitch.transpose_zero]

theorem map_midi_pitches (c : Chord) :
    c.pitches.map (·.midi) = c.quality.offsets.map (c.root.midi + ·) := by
  rw [pitches, List.map_map]
  apply List.map_congr_left
  intro k _
  exact Pitch.midi_transpose c.root k

theorem pairwise_pitches (c : Chord) : c.pitches.Pairwise (·.midi < ·.midi) := by
  rw [pitches, List.pairwise_map]
  apply c.quality.pairwise_offsets.imp
  intro a b lt
  rw [Pitch.midi_transpose, Pitch.midi_transpose]
  exact Int.add_lt_add_left lt _

theorem nodup_pitches (c : Chord) : c.pitches.Nodup := by
  apply c.pairwise_pitches.imp
  rintro p _ lt rfl
  exact Int.lt_irrefl _ lt

end Chord

/-- The whole numbers act on pitches by transposition: the number of a pitch grows by as much as the
pitch is moved, moves add up, and no two moves take a pitch to the same place. So a chord, wherever
its root stands in an octave, is its root and then tones whose numbers lie above that of the root by
the offsets of its quality, each one higher than the one before it. -/
theorem Pitch.transpose_action :
    ((∀ (p : Pitch) (a : Int), (p.transpose a).midi = p.midi + a) ∧
      (∀ (p : Pitch) (a b : Int), (p.transpose a).transpose b = p.transpose (a + b)) ∧
      (∀ p : Pitch, p.transpose 0 = p) ∧
      (∀ p : Pitch, Function.Injective p.transpose) ∧ Function.Injective midi) ∧
    ∀ c : Chord, (∃ above, c.pitches = c.root :: above) ∧
      c.pitches.map (·.midi) = c.quality.offsets.map (c.root.midi + ·) ∧
      c.pitches.Pairwise (·.midi < ·.midi) ∧ c.pitches.Nodup := by
  have faithful (p : Pitch) : Function.Injective p.transpose := by
    intro a b same
    rw [transpose_eq_iff, midi_transpose] at same
    omega
  exact ⟨⟨midi_transpose, transpose_transpose, transpose_zero, faithful, midi_injective⟩,
    fun c => ⟨c.exists_pitches, c.map_midi_pitches, c.pairwise_pitches, c.nodup_pitches⟩⟩

example : Chord.pitches ⟨⟨.b, -2⟩, .augmented⟩ = [⟨.b, -2⟩, ⟨.dSharp, -1⟩, ⟨.g, -1⟩] := by
  decide

end ChordScript
