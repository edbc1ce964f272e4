import ChordScript.Proofs.Midi.Performance

namespace ChordScript

theorem Schedule.mem_balance_of_ends {s : Schedule Float} (timed : s.IsTimed)
    (lasting : s.Lasting) {a b : List (Cue Float)} {c : Cue Float}
    (cued : s.cues = .ok (a ++ c :: b)) (ends : c.action = .noteOff)
    (sounding : Multiset (Voice × Note)) : c.target ∈ a.foldl Cue.balance sounding := by
  have kept := Cue.count_foldl_balance (x := c.target) sounding a fun front back split =>
    tally_noteOff_le timed lasting (by rw [cued, split, List.append_assoc]) _
  have next := tally_noteOff_le (a := a ++ [c]) (b := b) timed lasting (by rw [cued]; simp) c.target
  simp only [Cue.tally_append, Cue.tally_singleton, ends, reduceCtorEq, and_true, if_true,
    if_false] at next
  rw [← Multiset.one_le_count_iff_mem]
  omega

namespace Midi

theorem Line.Clear.of_le {l : Line} {m n : Nat} (clear : l.Clear n) (le : m ≤ n) : l.Clear m :=
  fun i lo hi => clear i lo (by omega)

namespace Player

variable {p : Player} {a : List (Cue Float)}

theorem coe_sounding_perform (onTime : p.OnTime a) (clear : p.line.Clear a.length) :
    ((p.perform a).player.sounding : Multiset (Voice × Note)) =
      a.foldl Cue.balance p.sounding := by
  rw [perform_of_clear onTime clear]
  exact Sounding.coe_foldl_apply _ _

theorem sounding_perform_concat {c : Cue Float} (ends : c.action = .noteOff)
    (onTime : p.OnTime (a ++ [c])) (clear : p.line.Clear (a ++ [c]).length)
    (held : c.target ∈ (p.perform a).player.sounding) :
    (p.perform a).player.sounding.Perm (c.target :: (p.perform (a ++ [c])).player.sounding) := by
  have front : p.line.Clear a.length := clear.of_le (by simp)
  rw [← Multiset.coe_eq_coe, ← Multiset.cons_coe, coe_sounding_perform onTime clear,
    List.foldl_concat, Cue.balance, ends, ← coe_sounding_perform onTime.of_append front]
  exact (Multiset.cons_erase held).symm

end Player

/-- No note is ended more often than it was started up to any point, and in the end as often. So a
player whose messages get through finds each note that ends among those that sound, and takes it
out once. -/
theorem cues_paired {s : Schedule Float} (timed : s.IsTimed) (lasting : s.Lasting)
    {cues : List (Cue Float)} (cued : s.cues = .ok cues) :
    (∀ x, Cue.tally .noteOff x cues = Cue.tally .noteOn x cues) ∧
      (∀ a, a <+: cues → ∀ x, Cue.tally .noteOff x a ≤ Cue.tally .noteOn x a) ∧
      ∀ p : Player, (p.play s).ending = .completed → ∀ a c b, cues = a ++ c :: b →
        c.action = .noteOff →
          c.target ∈ (p.perform a).player.sounding ∧
            ((p.perform a).player.sounding).Perm
              (c.target :: (p.perform (a ++ [c])).player.sounding) := by
  refine ⟨Schedule.tally_cues cued, ?_, ?_⟩
  · rintro a ⟨b, rfl⟩ x
    exact Schedule.tally_noteOff_le timed lasting cued x
  · rintro p fine a c b rfl ends
    obtain ⟨onTime, clear⟩ := (Player.play_completed_iff cued).1 fine
    rw [List.append_cons] at onTime
    have held := Schedule.mem_balance_of_ends timed lasting cued ends p.sounding
    rw [← Player.coe_sounding_perform onTime.of_append.of_append (clear.of_le (by simp)),
      Multiset.mem_coe] at held
    exact ⟨held, Player.sounding_perform_concat ends onTime.of_append (clear.of_le (by simp)) held⟩

namespace Pairing

def overlapping : Schedule Float where
  discipline := .sequential
  events := [.note .lead ⟨.c, 4⟩ 1 2, .note .lead ⟨.c, 4⟩ 0 2, .note .lead ⟨.c, 4⟩ 2 1]
  finalCursor := 3
  diagnostics := []

def overlappingCues : List (Cue Float) := overlapping.cues.toOption.getD []

def humming : Player :=
  { Player.soundless with sounding := (overlappingCues.take 1).map Cue.target }

theorem cues_paired_overlapping :
    overlappingCues =
        [⟨0, .noteOn, .lead, 60⟩, ⟨1, .noteOn, .lead, 60⟩, ⟨2, .noteOff, .lead, 60⟩,
          ⟨2, .noteOn, .lead, 60⟩, ⟨3, .noteOff, .lead, 60⟩, ⟨3, .noteOff, .lead, 60⟩] ∧
      overlapping.IsTimed ∧ overlapping.Lasting ∧ overlapping.cues = .ok overlappingCues ∧
      Cue.tally .noteOff (.lead, 60) overlappingCues =
        Cue.tally .noteOn (.lead, 60) overlappingCues ∧
      (∀ x, Cue.tally .noteOff x (overlappingCues.take 5) ≤
        Cue.tally .noteOn x (overlappingCues.take 5)) ∧
      (humming.play overlapping).ending = .completed ∧
      (.lead, 60) ∈ (humming.perform (overlappingCues.take 2)).player.sounding := by
  have good : overlapping.IsTimed ∧ overlapping.Lasting := by
    unfold Schedule.IsTimed Schedule.Lasting
    decide +kernel
  have cued : overlapping.cues = .ok overlappingCues := by decide +kernel
  have fine : (humming.play overlapping).ending = .completed := by decide +kernel
  have third : overlappingCues =
      overlappingCues.take 2 ++ ⟨2, .noteOff, .lead, 60⟩ :: overlappingCues.drop 3 := by
    decide +kernel
  obtain ⟨whole, part, found⟩ := cues_paired good.1 good.2 cued
  exact ⟨by decide +kernel, good.1, good.2, cued, whole _, part _ (List.take_prefix _ _), fine,
    (found humming fine _ _ _ third rfl).1⟩

end Pairing

end Midi

end ChordScript
